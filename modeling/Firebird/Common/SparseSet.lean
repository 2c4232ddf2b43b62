import Firebird.Common.SparseBitmap
import Mathlib.Data.Set.Basic

/-!
# Sparse bitmaps as sets

What a sparse bitmap denotes, and that its operations are those of sets. The position of the
accessor of a tree does not matter, since it is used only where it is on the bucket that is looked
for.
-/
namespace Firebird.Common

open List

variable {n k v w : Nat} {b : Bucket n} {bits : BitVec n} {items before after : List (Bucket n)}

theorem aligned_eq (hn : n = 2 ^ k) (value : Nat) : aligned n value = value - value % n := by
  rw [aligned, hn, Nat.and_two_pow_sub_one_eq_mod]

theorem aligned_le (hn : n = 2 ^ k) (value : Nat) : aligned n value ≤ value := by
  rw [aligned_eq hn]
  omega

def Bucket.Has (b : Bucket n) (value : Nat) : Prop :=
  b.startValue = aligned n value ∧ b.bits.getLsbD (value - aligned n value)

theorem sub_aligned_lt (hn : n = 2 ^ k) (value : Nat) : value - aligned n value < n := by
  have hpos : 0 < n := hn ▸ Nat.two_pow_pos k
  have hlt : value % n < n := Nat.mod_lt _ hpos
  rw [aligned_eq hn]
  omega

theorem bitMask_eq (value : Nat) : bitMask n value = BitVec.twoPow n (value - aligned n value) :=
    rfl

theorem and_bitMask_ne_zero (hn : n = 2 ^ k) (bits : BitVec n) (value : Nat) :
    bits &&& bitMask n value ≠ 0 ↔ bits.getLsbD (value - aligned n value) := by
  have hlt := sub_aligned_lt hn value
  rw [bitMask_eq, BitVec.and_twoPow]
  cases bits.getLsbD (value - aligned n value) with
  | false => simp
  | true =>
    simp only [iff_true]
    intro h
    have hbit := congrArg (fun x : BitVec n => x.getLsbD (value - aligned n value)) h
    simp [hlt] at hbit

theorem eq_of_aligned (h : aligned n v = aligned n w) (hbit : v - aligned n v = w - aligned n w)
    (hn : n = 2 ^ k) : v = w := by
  rw [aligned_eq hn, aligned_eq hn] at h hbit
  omega

theorem Bucket.has_of (hn : n = 2 ^ k) : (Bucket.of n v).Has w ↔ v = w := by
  have hlt := sub_aligned_lt hn w
  rw [Bucket.Has, Bucket.of, bitMask_eq, BitVec.getLsbD_twoPow]
  constructor
  · rintro ⟨hstart, hbit⟩
    simp only [Bool.and_eq_true, decide_eq_true_eq] at hbit
    exact eq_of_aligned hstart hbit.2 hn
  · rintro rfl
    simp [hlt]

theorem Bucket.has_or (hstart : b.startValue = aligned n v) (hn : n = 2 ^ k) :
    (Bucket.or (bitMask n v) b).Has w ↔ b.Has w ∨ v = w := by
  rw [← Bucket.has_of hn]
  simp only [Bucket.Has, Bucket.or, BitVec.getLsbD_or, Bool.or_eq_true, hstart]
  tauto

theorem Bucket.has_clear (hstart : b.startValue = aligned n v) (hn : n = 2 ^ k) :
    (Bucket.and (~~~bitMask n v) b).Has w ↔ b.Has w ∧ v ≠ w := by
  rw [ne_eq, ← Bucket.has_of hn]
  simp only [Bucket.Has, Bucket.and, Bucket.of]
  grind

theorem aligned_mod (hn : n = 2 ^ k) (value : Nat) : aligned n value % n = 0 := by
  rw [aligned_eq hn]
  have h := Nat.div_add_mod value n
  have heq : value - value % n = n * (value / n) := by omega
  rw [heq, Nat.mul_mod_right]

/-! ## Trees -/

def Holds (items : List (Bucket n)) (value : Nat) : Prop := ∃ b ∈ items, b.Has value

structure Good (items : List (Bucket n)) : Prop where
  sorted : items.Pairwise fun b c => b.startValue < c.startValue
  bits : ∀ b ∈ items, b.bits ≠ 0
  start : ∀ b ∈ items, b.startValue % n = 0

@[simp]
theorem holds_nil : ¬Holds ([] : List (Bucket n)) v := by
  simp [Holds]

@[simp]
theorem holds_cons : Holds (b :: items) v ↔ b.Has v ∨ Holds items v := by
  simp [Holds]

@[simp]
theorem holds_append : Holds (before ++ after) v ↔ Holds before v ∨ Holds after v := by
  simp [Holds, or_and_right, exists_or]

theorem good_nil : Good ([] : List (Bucket n)) := ⟨Pairwise.nil, by simp, by simp⟩

theorem Good.lt_of_mem (h : Good (before ++ b :: after)) :
    (∀ c ∈ before, c.startValue < b.startValue) ∧ ∀ c ∈ after, b.startValue < c.startValue := by
  have hs := pairwise_append.1 h.sorted
  exact ⟨fun c hc => hs.2.2 c hc b mem_cons_self, (pairwise_cons.1 hs.2.1).1⟩

theorem Good.replace (h : Good (before ++ b :: after)) {c : Bucket n}
    (hstart : c.startValue = b.startValue) (hbits : c.bits ≠ 0) :
    Good (before ++ c :: after) := by
  have hs := pairwise_append.1 h.sorted
  refine ⟨pairwise_append.2 ⟨hs.1, ?_, ?_⟩, ?_, ?_⟩
  · rw [pairwise_cons, hstart]
    exact pairwise_cons.1 hs.2.1
  · intro x hx y hy
    rcases mem_cons.1 hy with rfl | hy
    · rw [hstart]
      exact hs.2.2 x hx b mem_cons_self
    · exact hs.2.2 x hx y (mem_cons_of_mem _ hy)
  · intro x hx
    have hb := h.bits x
    simp only [mem_append, mem_cons] at hx hb
    rcases hx with hx | rfl | hx
    · exact hb (.inl hx)
    · exact hbits
    · exact hb (.inr (.inr hx))
  · intro x hx
    have hb := h.start
    simp only [mem_append, mem_cons] at hx hb
    rcases hx with hx | rfl | hx
    · exact hb x (.inl hx)
    · rw [hstart]
      exact hb b (.inr (.inl rfl))
    · exact hb x (.inr (.inr hx))

theorem Good.sublist (h : Good items) {items' : List (Bucket n)} (hsub : items'.Sublist items) :
    Good items' where
  sorted := h.sorted.sublist hsub
  bits := fun c hc => h.bits c (hsub.subset hc)
  start := fun c hc => h.start c (hsub.subset hc)

theorem Good.remove (h : Good (before ++ b :: after)) : Good (before ++ after) :=
  h.sublist (Sublist.append (Sublist.refl _) (sublist_cons_self _ _))

theorem Good.insert (h : Good (before ++ after)) (hbits : b.bits ≠ 0)
    (hstart : b.startValue % n = 0)
    (hbefore : ∀ c ∈ before, c.startValue < b.startValue)
    (hafter : ∀ c ∈ after, b.startValue < c.startValue) : Good (before ++ b :: after) := by
  have hs := pairwise_append.1 h.sorted
  refine ⟨pairwise_append.2 ⟨hs.1, pairwise_cons.2 ⟨hafter, hs.2.1⟩, ?_⟩, ?_, ?_⟩
  · intro x hx y hy
    rcases mem_cons.1 hy with rfl | hy
    · exact hbefore x hx
    · exact hs.2.2 x hx y hy
  · intro x hx
    rcases mem_append.1 hx with hx | hx
    · exact h.bits x (mem_append_left _ hx)
    · rcases mem_cons.1 hx with rfl | hx
      · exact hbits
      · exact h.bits x (mem_append_right _ hx)
  · intro x hx
    rcases mem_append.1 hx with hx | hx
    · exact h.start x (mem_append_left _ hx)
    · rcases mem_cons.1 hx with rfl | hx
      · exact hstart
      · exact h.start x (mem_append_right _ hx)

theorem Good.split (h : Good items) (value : Nat) :
    (∃ before b after, items = before ++ b :: after ∧ b.startValue = value ∧
      find Bucket.startValue items value = before.length) ∨
    ∃ before after, items = before ++ after ∧ (∀ c ∈ before, c.startValue < value) ∧
      (∀ c ∈ after, value < c.startValue) ∧
      find Bucket.startValue items value = before.length := by
  obtain ⟨before, after, rfl, hbefore, hafter⟩ := exists_split Bucket.startValue items value
  have hfind := find_append hbefore hafter
  cases after with
  | nil => exact .inr ⟨before, [], rfl, hbefore, by simp, hfind⟩
  | cons b after =>
    have hle : value ≤ b.startValue := hafter b rfl
    rcases Nat.lt_or_eq_of_le hle with hlt | heq
    · refine .inr ⟨before, b :: after, rfl, hbefore, ?_, hfind⟩
      intro c hc
      rcases mem_cons.1 hc with rfl | hc
      · exact hlt
      · exact Nat.lt_trans hlt (h.lt_of_mem.2 c hc)
    · exact .inl ⟨before, b, after, rfl, heq.symm, hfind⟩

theorem getElem?_append_length : (before ++ b :: after)[before.length]? = some b := by
  simp

theorem seek_spec {tree : BePlusTree (Bucket n)} (h : Good tree.items) (value : Nat) :
    (∃ before b after, tree.items = before ++ b :: after ∧ b.startValue = value ∧
      tree.seek Bucket.startValue value = (true, ⟨tree.items, before.length⟩)) ∨
    (∀ b ∈ tree.items, b.startValue ≠ value) ∧
      ∃ pos, tree.seek Bucket.startValue value = (false, ⟨tree.items, pos⟩) := by
  rw [BePlusTree.seek]
  split_ifs with hpos
  · left
    simp only [BePlusTree.isPositioned, beq_iff_eq] at hpos
    obtain ⟨b, hget, hb⟩ := Option.map_eq_some_iff.1 hpos
    obtain ⟨hlt, heq⟩ := List.getElem?_eq_some_iff.1 hget
    refine ⟨tree.items.take tree.curPos, b, tree.items.drop (tree.curPos + 1), ?_, hb, ?_⟩
    · rw [← heq, getElem_cons_drop, take_append_drop]
    · rw [length_take, Nat.min_eq_left (Nat.le_of_lt hlt)]
  · rcases h.split value with ⟨before, b, after, heq, hb, hfind⟩
      | ⟨before, after, heq, hlt, hgt, hfind⟩
    · left
      refine ⟨before, b, after, heq, hb, ?_⟩
      have hget : tree.items[before.length]? = some b := by
        rw [heq]
        exact getElem?_append_length
      simp [BePlusTree.locate, hfind, hget, hb]
    · right
      refine ⟨?_, before.length, ?_⟩
      · intro b hb
        rw [heq] at hb
        rcases mem_append.1 hb with hb | hb
        · exact Nat.ne_of_lt (hlt b hb)
        · exact Nat.ne_of_gt (hgt b hb)
      · simp only [BePlusTree.locate, hfind]
        congr 1
        rw [heq]
        cases after with
        | nil => simp
        | cons c after =>
          have hne := Nat.ne_of_gt (hgt c mem_cons_self)
          simp [hne]

namespace SparseBitmap

variable {tree dest : BePlusTree (Bucket n)} {source : List (Bucket n)} {value : Nat}

theorem add_spec (h : Good tree.items) (b : Bucket n) :
    (∃ before c after, tree.items = before ++ c :: after ∧ c.startValue = b.startValue ∧
      tree.add Bucket.startValue b = (false, ⟨tree.items, before.length⟩)) ∨
    ∃ before after, tree.items = before ++ after ∧ (∀ c ∈ before, c.startValue < b.startValue) ∧
      (∀ c ∈ after, b.startValue < c.startValue) ∧
      tree.add Bucket.startValue b = (true, ⟨before ++ b :: after, tree.curPos⟩) := by
  rcases h.split b.startValue with ⟨before, c, after, heq, hc, hfind⟩ |
    ⟨before, after, heq, hlt, hgt, hfind⟩
  · left
    have hget : tree.items[before.length]? = some c := by
      rw [heq]
      exact getElem?_append_length
    exact ⟨before, c, after, heq, hc, by simp [BePlusTree.add, hfind, hget, hc]⟩
  · right
    refine ⟨before, after, heq, hlt, hgt, ?_⟩
    have hadd := @add_append (Bucket n) Bucket.startValue before after b tree.curPos hlt
      (fun c hc => hgt c (mem_of_mem_head? hc))
    rw [← heq] at hadd
    exact hadd

theorem bitMask_ne_zero (hn : n = 2 ^ k) (value : Nat) : bitMask n value ≠ 0 := by
  intro h
  have hbit := (@Bucket.has_of n k value value hn).2 rfl
  simp [Bucket.Has, Bucket.of, h] at hbit

theorem or_ne_zero (hn : n = 2 ^ k) (bits : BitVec n) (value : Nat) :
    bits ||| bitMask n value ≠ 0 := by
  intro h
  exact bitMask_ne_zero hn value (BitVec.or_eq_zero_iff.1 h).2

theorem holds_modify_or (hn : n = 2 ^ k) (hstart : b.startValue = aligned n v) :
    Holds (before ++ Bucket.or (bitMask n v) b :: after) w ↔
      Holds (before ++ b :: after) w ∨ v = w := by
  simp only [holds_append, holds_cons, Bucket.has_or hstart hn]
  tauto

theorem setBit_spec (hn : n = 2 ^ k) (h : Good tree.items) (value : Nat) :
    Good (setBit tree value).items ∧
      ∀ w, Holds (setBit tree value).items w ↔ Holds tree.items w ∨ value = w := by
  have hmodify : ∀ before c after, tree.items = before ++ c :: after →
      c.startValue = aligned n value →
      Good (tree.items.modify before.length (Bucket.or (bitMask n value))) ∧
        ∀ w, Holds (tree.items.modify before.length (Bucket.or (bitMask n value))) w ↔
          Holds tree.items w ∨ value = w := by
    intro before c after heq hc
    have h' : Good (before ++ c :: after) := heq ▸ h
    rw [heq, modify_append]
    refine ⟨h'.replace rfl (or_ne_zero hn _ _), fun w => ?_⟩
    exact holds_modify_or hn hc
  rw [setBit]
  split_ifs with hpos
  · simp only [BePlusTree.isPositioned, beq_iff_eq] at hpos
    obtain ⟨c, hget, hc⟩ := Option.map_eq_some_iff.1 hpos
    obtain ⟨hlt, heq⟩ := List.getElem?_eq_some_iff.1 hget
    have hsplit : tree.items = tree.items.take tree.curPos ++ c :: tree.items.drop
      (tree.curPos + 1) := by
      rw [← heq, getElem_cons_drop, take_append_drop]
    have hspec := hmodify _ c _ hsplit hc
    rw [length_take, Nat.min_eq_left (Nat.le_of_lt hlt)] at hspec
    exact hspec
  · rcases add_spec h (Bucket.of n value) with ⟨before, c, after, heq, hc, hadd⟩ |
      ⟨before, after, heq, hlt, hgt, hadd⟩
    · rw [hadd]
      exact hmodify before c after heq hc
    · rw [hadd]
      have h' : Good (before ++ after) := heq ▸ h
      refine ⟨h'.insert (bitMask_ne_zero hn value) (aligned_mod hn value) hlt hgt, fun w => ?_⟩
      simp only [if_true, heq, holds_append, holds_cons, Bucket.has_of hn]
      tauto

def Mem (b : SparseBitmap n) (value : Nat) : Prop :=
  if b.singular then value = b.singularValue else Holds b.tree.items value

/-- The buckets of a bitmap are good, and it has none while it is singular. -/
structure Wf (b : SparseBitmap n) : Prop where
  good : Good b.tree.items
  singular : b.singular → b.tree.items = []

variable {map : SparseBitmap n}

theorem set_spec (hn : n = 2 ^ k) (h : Wf map) (value : Nat) :
    Wf (map.set value) ∧ ∀ w, (map.set value).Mem w ↔ map.Mem w ∨ value = w := by
  rw [set]
  split_ifs with hs heq hempty
  · exact ⟨h, fun w => by simp [Mem, hs, ← heq, eq_comm]⟩
  · have hadd : (map.tree.add Bucket.startValue (Bucket.of n map.singularValue)).2.items =
        [Bucket.of n map.singularValue] := by
      simp [BePlusTree.add, h.singular hs, find]
    have hgood : Good [Bucket.of n map.singularValue] :=
      ⟨pairwise_singleton _ _, by simpa [Bucket.of] using bitMask_ne_zero hn _,
        by simpa [Bucket.of] using aligned_mod hn _⟩
    obtain ⟨hgood', hmem⟩ := setBit_spec hn (hadd ▸ hgood) value
    refine ⟨⟨hgood', by simp⟩, fun w => ?_⟩
    simp only [Mem, hs, if_true, Bool.false_eq_true, if_false, hmem, hadd, holds_cons, holds_nil,
      Bucket.has_of hn, or_false]
    rw [eq_comm]
  · refine ⟨⟨h.good, fun _ => List.isEmpty_iff.1 hempty⟩, fun w => ?_⟩
    simp [Mem, hs, List.isEmpty_iff.1 hempty, eq_comm]
  · obtain ⟨hgood, hmem⟩ := setBit_spec hn h.good value
    refine ⟨⟨hgood, fun hs' => absurd hs' hs⟩, fun w => ?_⟩
    simp only [Mem, hs]
    exact hmem w

theorem not_holds_of_ne (h : ∀ b ∈ items, b.startValue ≠ aligned n v) : ¬Holds items v := by
  rintro ⟨b, hb, hstart, -⟩
  exact h b hb hstart

theorem Good.holds_iff (h : Good (before ++ b :: after)) (hstart : b.startValue = aligned n v) :
    Holds (before ++ b :: after) v ↔ b.Has v := by
  obtain ⟨hlt, hgt⟩ := h.lt_of_mem
  have hbefore : ¬Holds before v :=
    not_holds_of_ne fun c hc => by have := hlt c hc; omega
  have hafter : ¬Holds after v :=
    not_holds_of_ne fun c hc => by have := hgt c hc; omega
  simp [hbefore, hafter]

theorem test_spec (hn : n = 2 ^ k) (h : Wf map) (value : Nat) :
    ((map.test value).1 ↔ map.Mem value) ∧ (map.test value).2.singular = map.singular ∧
      (map.test value).2.singularValue = map.singularValue ∧
      (map.test value).2.tree.items = map.tree.items := by
  rw [test]
  split_ifs with hs
  · simp [Mem, hs]
  · rcases seek_spec h.good (aligned n value) with ⟨before, b, after, heq, hb, hseek⟩ |
      ⟨hne, pos, hseek⟩
    · have hcur : (⟨map.tree.items, before.length⟩ : BePlusTree (Bucket n)).current = some b := by
        simp [BePlusTree.current, heq]
      have hmem : map.Mem value ↔ b.bits &&& bitMask n value ≠ 0 := by
        rw [Mem, if_neg hs, heq, Good.holds_iff (heq ▸ h.good) hb, Bucket.Has,
          and_bitMask_ne_zero hn]
        exact and_iff_right hb
      simp only [hseek, hcur, hmem]
      simp
    · have hmem : ¬map.Mem value := by
        rw [Mem, if_neg hs]
        exact not_holds_of_ne hne
      simp only [hseek]
      simp [hmem]

theorem holds_modify_clear (hn : n = 2 ^ k) (h : Good (before ++ b :: after))
    (hstart : b.startValue = aligned n v) :
    Holds (before ++ Bucket.and (~~~bitMask n v) b :: after) w ↔
      Holds (before ++ b :: after) w ∧ v ≠ w := by
  simp only [holds_append, holds_cons, Bucket.has_clear hstart hn]
  by_cases hvw : v = w
  · subst hvw
    obtain ⟨hlt, hgt⟩ := h.lt_of_mem
    have hbefore : ¬Holds before v :=
      not_holds_of_ne fun c hc => by have := hlt c hc; omega
    have hafter : ¬Holds after v :=
      not_holds_of_ne fun c hc => by have := hgt c hc; omega
    simp [hbefore, hafter]
  · simp [hvw]

theorem not_has_of_bits (hb : b.bits = 0) : ¬b.Has v := by
  simp [Bucket.Has, hb]

theorem clear_spec (hn : n = 2 ^ k) (h : Wf map) (value : Nat) :
    ((map.clear value).1 ↔ map.Mem value) ∧ Wf (map.clear value).2 ∧
      ∀ w, (map.clear value).2.Mem w ↔ map.Mem w ∧ value ≠ w := by
  rw [clear]
  split_ifs with hs heq
  · refine ⟨by simp [Mem, hs, heq], ⟨h.good, by simp⟩, fun w => ?_⟩
    simp only [Mem, hs, Bool.false_eq_true, if_false, h.singular hs, holds_nil, false_iff]
    rintro ⟨rfl, hne⟩
    exact hne heq
  · refine ⟨by simpa [Mem, hs] using heq, h, fun w => ?_⟩
    simp only [Mem, hs]
    refine ⟨fun hw => ⟨hw, fun hv => heq (hv.trans hw)⟩, And.left⟩
  · have hmem : ∀ w, map.Mem w ↔ Holds map.tree.items w := fun w => by rw [Mem, if_neg hs]
    have hplain : ∀ tree : BePlusTree (Bucket n), Good tree.items →
        Wf { map with tree := tree } ∧ ∀ w, Mem { map with tree := tree } w ↔ Holds tree.items w :=
      fun tree hgood => ⟨⟨hgood, fun hs' => absurd hs' hs⟩, fun w => by simp [Mem, hs]⟩
    rcases seek_spec h.good (aligned n value) with ⟨before, b, after, heq, hb, hseek⟩ |
      ⟨hne, pos, hseek⟩
    · have hcur : (⟨map.tree.items, before.length⟩ : BePlusTree (Bucket n)).current = some b := by
        simp [BePlusTree.current, heq]
      have hgood : Good (before ++ b :: after) := heq ▸ h.good
      have hhas : map.Mem value ↔ b.bits &&& bitMask n value ≠ 0 := by
        rw [hmem, heq, Good.holds_iff hgood hb, Bucket.Has, and_bitMask_ne_zero hn]
        exact and_iff_right hb
      simp only [hseek, hcur]
      split_ifs with hbit hzero
      · -- The bucket is empty and leaves the tree.
        obtain ⟨hwf, hmem'⟩ := hplain ⟨before ++ after, before.length⟩ hgood.remove
        have htree : ((⟨map.tree.items, before.length⟩ : BePlusTree (Bucket n)).modify before.length
            (Bucket.and (~~~bitMask n value))).fastRemove.2 = ⟨before ++ after, before.length⟩ := by
          simp [BePlusTree.modify, BePlusTree.fastRemove, heq, modify_append, eraseIdx_append]
        rw [htree]
        refine ⟨by simpa using hhas.2 hbit, hwf, fun w => ?_⟩
        have hgone : ¬(Bucket.and (~~~bitMask n value) b).Has w := not_has_of_bits hzero
        rw [hmem', hmem, heq, ← holds_modify_clear hn hgood hb]
        simp [hgone]
      · obtain ⟨hwf, hmem'⟩ := hplain
          ⟨before ++ Bucket.and (~~~bitMask n value) b :: after, before.length⟩
          (hgood.replace rfl hzero)
        have htree : (⟨map.tree.items, before.length⟩ : BePlusTree (Bucket n)).modify before.length
            (Bucket.and (~~~bitMask n value)) =
              ⟨before ++ Bucket.and (~~~bitMask n value) b :: after, before.length⟩ := by
          simp [BePlusTree.modify, heq, modify_append]
        rw [htree]
        refine ⟨by simpa using hhas.2 hbit, hwf, fun w => ?_⟩
        rw [hmem', hmem, heq, ← holds_modify_clear hn hgood hb]
      · obtain ⟨hwf, hmem'⟩ := hplain ⟨map.tree.items, before.length⟩ h.good
        have hnot : ¬map.Mem value := fun hv => hbit (hhas.1 hv)
        refine ⟨by simpa using hnot, hwf, fun w => ?_⟩
        exact ⟨fun hw => ⟨hw, fun hv => hnot (hv ▸ hw)⟩, And.left⟩
    · have hnot : ¬map.Mem value := by
        rw [hmem]
        exact not_holds_of_ne hne
      obtain ⟨hwf, hmem'⟩ := hplain ⟨map.tree.items, pos⟩ h.good
      simp only [hseek]
      refine ⟨by simpa using hnot, hwf, fun w => ?_⟩
      exact ⟨fun hw => ⟨hw, fun hv => hnot (hv ▸ hw)⟩, And.left⟩

end SparseBitmap

end Firebird.Common
