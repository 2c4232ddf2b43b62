import Firebird.Jrd.SortQuick
import Firebird.Lib.Parts
import Mathlib.Data.List.Lex
import Mathlib.Data.List.Nodup
import Mathlib.Data.List.Range
import Mathlib.Logic.Equiv.Basic

/-!
# Slots and records

The records of a sort buffer have their places, the pointers go to all of them, and each back
pointer goes to the slot of its record. That stays so when slots are swapped. The records are in the
order of their longwords, and the comparisons of `quick` respect it.
-/
namespace Firebird.Jrd.Sort

open Lib Memory Parts List Function

/-- The key address of the record that was put as number `k`. -/
def SortArea.keyAddress (scb : SortArea) (k : Nat) : Nat :=
  scb.endMemory - k * scb.longs + sizeofSrBckptrInLongs

/-- The records with their pointers and those to the guards have room in the buffer, the size of
which is a `ULONG`. `high_key` is not in the buffer. -/
structure SortArea.Fits (scb : SortArea) (n : Nat) : Prop where
  longs : sizeofSrBckptrInLongs < scb.longs
  room : 2 * (n + 2) + n * scb.longs ≤ scb.size
  bytes : 4 * scb.size < 2 ^ 32
  high : scb.highKey < scb.memory ∨ scb.endMemory ≤ scb.highKey

/-- Slots `1` to `n` point to the records. -/
structure Laid (scb : SortArea) (n : Nat) (s : SortBuffer) : Prop where
  perm : ((List.range' 1 n).map s.pointers).Perm ((List.range' 1 n).map scb.keyAddress)
  bckptr : ∀ k, 1 ≤ k → k ≤ n →
    load s.memory (s.pointers k - sizeofSrBckptrInLongs) sizeofSrBckptrInLongs = scb.bckptr k
  low : s.pointers 0 = scb.lowKey
  high : s.pointers (n + 1) = scb.highKey
  guard : s.memory scb.highKey = 0xFFFFFFFF

def SortBuffer.longwords (s : SortBuffer) (p length : Nat) : List Nat :=
  (load s.memory p length).map UInt32.toNat

def rank (scb : SortArea) (s : SortBuffer) (k : Nat) : List Nat :=
  s.longwords (s.pointers k) (scb.longs - sizeofSrBckptrInLongs)

variable {scb : SortArea} {n a b k : Nat} {s s' : SortBuffer}

theorem SortArea.Fits.place (h : scb.Fits n) (hk : 1 ≤ k) (hkn : k ≤ n) :
    scb.memory + 2 ≤ scb.keyAddress k ∧ scb.keyAddress k + scb.longs ≤ scb.endMemory + 2 := by
  have hle : k * scb.longs ≤ n * scb.longs := Nat.mul_le_mul_right _ hkn
  have hone : 1 * scb.longs ≤ k * scb.longs := Nat.mul_le_mul_right _ hk
  have hroom := h.room
  simp only [SortArea.keyAddress, SortArea.endMemory, sizeofSrBckptrInLongs]
  omega

theorem SortArea.Fits.keyAddress_add_le (h : scb.Fits n) (hab : a < b) (hb : b ≤ n) :
    scb.keyAddress b + scb.longs ≤ scb.keyAddress a := by
  have hle : b * scb.longs ≤ n * scb.longs := Nat.mul_le_mul_right _ hb
  have hlt : (a + 1) * scb.longs ≤ b * scb.longs := Nat.mul_le_mul_right _ hab
  have hroom := h.room
  rw [Nat.succ_mul] at hlt
  simp only [SortArea.keyAddress, SortArea.endMemory]
  omega

theorem SortArea.Fits.keyAddress_inj (h : scb.Fits n) (ha : a ≤ n) (hb : b ≤ n)
    (heq : scb.keyAddress a = scb.keyAddress b) : a = b := by
  have hlongs := h.longs
  rcases Nat.lt_trichotomy a b with hlt | heq | hlt
  · have := h.keyAddress_add_le hlt hb
    omega
  · exact heq
  · have := h.keyAddress_add_le hlt ha
    omega

theorem SortArea.Fits.nodup (h : scb.Fits n) :
    ((range' 1 n).map scb.keyAddress).Nodup := by
  refine Nodup.map_on ?_ nodup_range'
  intro a ha b hb heq
  rw [mem_range'_1] at ha hb
  exact h.keyAddress_inj (by omega) (by omega) heq

theorem Laid.exists_keyAddress (h : Laid scb n s) (hk : 1 ≤ k) (hkn : k ≤ n) :
    ∃ i, 1 ≤ i ∧ i ≤ n ∧ s.pointers k = scb.keyAddress i := by
  have hmem : s.pointers k ∈ (range' 1 n).map s.pointers :=
    mem_map_of_mem (mem_range'_1.2 ⟨hk, by omega⟩)
  obtain ⟨i, hi, heq⟩ := mem_map.1 (h.perm.mem_iff.1 hmem)
  rw [mem_range'_1] at hi
  exact ⟨i, hi.1, by omega, heq.symm⟩

theorem Laid.exists_slot (h : Laid scb n s) (hk : 1 ≤ k) (hkn : k ≤ n) :
    ∃ i, 1 ≤ i ∧ i ≤ n ∧ s.pointers i = scb.keyAddress k := by
  have hmem : scb.keyAddress k ∈ (range' 1 n).map scb.keyAddress :=
    mem_map_of_mem (mem_range'_1.2 ⟨hk, by omega⟩)
  obtain ⟨i, hi, heq⟩ := mem_map.1 (h.perm.mem_iff.2 hmem)
  rw [mem_range'_1] at hi
  exact ⟨i, hi.1, by omega, heq⟩

theorem Laid.pointers_inj (h : Laid scb n s) (hfits : scb.Fits n) (ha : 1 ≤ a) (han : a ≤ n)
    (hb : 1 ≤ b) (hbn : b ≤ n) (heq : s.pointers a = s.pointers b) : a = b := by
  have hnodup : ((range' 1 n).map s.pointers).Nodup := h.perm.nodup_iff.2 hfits.nodup
  exact inj_on_of_nodup_map hnodup (mem_range'_1.2 ⟨ha, by omega⟩)
    (mem_range'_1.2 ⟨hb, by omega⟩) heq

theorem Laid.beside (h : Laid scb n s) (hfits : scb.Fits n) (ha : 1 ≤ a) (han : a ≤ n)
    (hb : 1 ≤ b) (hbn : b ≤ n) (hne : a ≠ b) :
    s.pointers a + scb.longs ≤ s.pointers b ∨ s.pointers b + scb.longs ≤ s.pointers a := by
  have hne' : s.pointers a ≠ s.pointers b := fun heq =>
    hne (h.pointers_inj hfits ha han hb hbn heq)
  obtain ⟨i, hi, hin, hai⟩ := h.exists_keyAddress ha han
  obtain ⟨j, hj, hjn, hbj⟩ := h.exists_keyAddress hb hbn
  rw [hai, hbj] at hne' ⊢
  rcases Nat.lt_trichotomy i j with hlt | rfl | hlt
  · exact .inr (hfits.keyAddress_add_le hlt hjn)
  · exact absurd rfl hne'
  · exact .inl (hfits.keyAddress_add_le hlt hin)

theorem Laid.place (h : Laid scb n s) (hfits : scb.Fits n) (hk : 1 ≤ k) (hkn : k ≤ n) :
    scb.memory + 2 ≤ s.pointers k ∧ s.pointers k + scb.longs ≤ scb.endMemory + 2 := by
  obtain ⟨i, hi, hin, hki⟩ := h.exists_keyAddress hk hkn
  rw [hki]
  exact hfits.place hi hin

theorem swap_pointers (scb : SortArea) (a b : Nat) (s : SortBuffer) :
    (swap scb a b s).pointers = s.pointers ∘ Equiv.swap a b := by
  funext k
  simp only [swap, update_apply, comp_apply, Equiv.swap_apply_def]
  split_ifs with h1 h2 <;> simp_all

@[simp]
theorem length_bckptr (scb : SortArea) (slot : Nat) :
    (scb.bckptr slot).length = sizeofSrBckptrInLongs := rfl

theorem swap_memory {x : Nat}
    (ha : x + 2 < s.pointers a ∨ s.pointers a ≤ x) (hb : x + 2 < s.pointers b ∨ s.pointers b ≤ x)
    (ha' : 2 ≤ s.pointers a) (hb' : 2 ≤ s.pointers b) :
    (swap scb a b s).memory x = s.memory x := by
  have hframe : ∀ {m : Nat → UInt32} {p slot : Nat}, x + 2 < p ∨ p ≤ x → 2 ≤ p →
      scb.setBckptr p slot m x = m x := by
    intro m p slot hp hp'
    refine store_frame ?_
    rw [length_bckptr]
    simp only [sizeofSrBckptrInLongs]
    omega
  exact (hframe hb hb').trans (hframe ha ha')

theorem Laid.swap_load (h : Laid scb n s) (hfits : scb.Fits n) (ha : 1 ≤ a) (han : a ≤ n)
    (hb : 1 ≤ b) (hbn : b ≤ n) (hk : 1 ≤ k) (hkn : k ≤ n) :
    load (swap scb a b s).memory (s.pointers k) (scb.longs - sizeofSrBckptrInLongs) =
      load s.memory (s.pointers k) (scb.longs - sizeofSrBckptrInLongs) := by
  refine load_congr fun x hx hx' => ?_
  have hpa := (h.place hfits ha han).1
  have hpb := (h.place hfits hb hbn).1
  simp only [sizeofSrBckptrInLongs] at hx'
  have hout : ∀ c, 1 ≤ c → c ≤ n → x + 2 < s.pointers c ∨ s.pointers c ≤ x := by
    intro c hc hcn
    by_cases hck : c = k
    · subst hck
      exact .inr hx
    · have := h.beside hfits hc hcn hk hkn hck
      omega
  exact swap_memory (hout a ha han) (hout b hb hbn) (by omega) (by omega)

theorem perm_map_swap {α : Type*} (f : Nat → α) (ha : 1 ≤ a) (han : a ≤ n) (hb : 1 ≤ b)
    (hbn : b ≤ n) :
    ((range' 1 n).map (f ∘ Equiv.swap a b)).Perm ((range' 1 n).map f) := by
  rw [← map_map]
  refine Perm.map f ?_
  have hnodup : (range' 1 n).Nodup := nodup_range'
  refine (perm_ext_iff_of_nodup (hnodup.map (Equiv.swap a b).injective) hnodup).2 fun k => ?_
  have hmem : ∀ k, Equiv.swap a b k ∈ range' 1 n ↔ k ∈ range' 1 n := by
    intro k
    simp only [mem_range'_1, Equiv.swap_apply_def]
    split_ifs <;> omega
  constructor
  · intro hk
    obtain ⟨i, hi, rfl⟩ := mem_map.1 hk
    exact (hmem i).2 hi
  · intro hk
    exact mem_map.2 ⟨Equiv.swap a b k, (hmem k).2 hk, Equiv.swap_apply_self a b k⟩

variable {length p q : Nat}

theorem load_setBckptr {m : Nat → UInt32} {p slot : Nat} :
    load (scb.setBckptr p slot m) (p - sizeofSrBckptrInLongs) sizeofSrBckptrInLongs =
      scb.bckptr slot :=
  load_store_self m _ (scb.bckptr slot)

theorem load_setBckptr_of_beside {m : Nat → UInt32} {slot : Nat} (hp : 2 ≤ p) (hq : 2 ≤ q)
    (h : p + 2 ≤ q ∨ q + 2 ≤ p) :
    load (scb.setBckptr p slot m) (q - sizeofSrBckptrInLongs) sizeofSrBckptrInLongs =
      load m (q - sizeofSrBckptrInLongs) sizeofSrBckptrInLongs := by
  refine load_congr fun x hx hx' => store_frame ?_
  rw [length_bckptr]
  simp only [sizeofSrBckptrInLongs] at hx hx' ⊢
  omega

theorem Laid.swap (h : Laid scb n s) (hfits : scb.Fits n) (ha : 1 ≤ a) (han : a ≤ n)
    (hb : 1 ≤ b) (hbn : b ≤ n) : Laid scb n (swap scb a b s) where
  perm := by
    rw [swap_pointers]
    exact (perm_map_swap s.pointers ha han hb hbn).trans h.perm
  bckptr := by
    intro k hk hkn
    have hlongs := hfits.longs
    have hpa := (h.place hfits ha han).1
    have hpb := (h.place hfits hb hbn).1
    have hfar : ∀ {c d}, 1 ≤ c → c ≤ n → 1 ≤ d → d ≤ n → c ≠ d →
        s.pointers c + 2 ≤ s.pointers d ∨ s.pointers d + 2 ≤ s.pointers c := by
      intro c d hc hcn hd hdn hne
      have := h.beside hfits hc hcn hd hdn hne
      simp only [sizeofSrBckptrInLongs] at hlongs
      omega
    rw [swap_pointers, comp_apply, Sort.swap]
    by_cases hka : k = a
    · subst hka
      rw [Equiv.swap_apply_left]
      exact load_setBckptr
    · by_cases hkb : k = b
      · subst hkb
        rw [Equiv.swap_apply_right,
          load_setBckptr_of_beside (by omega) (by omega)
            (hfar hb hbn ha han (Ne.symm fun h => hka h.symm))]
        exact load_setBckptr
      · have hpk := (h.place hfits hk hkn).1
        rw [Equiv.swap_apply_of_ne_of_ne hka hkb,
          load_setBckptr_of_beside (by omega) (by omega) (hfar hb hbn hk hkn (Ne.symm hkb)),
          load_setBckptr_of_beside (by omega) (by omega) (hfar ha han hk hkn (Ne.symm hka))]
        exact h.bckptr k hk hkn
  low := by
    rw [swap_pointers, comp_apply, Equiv.swap_apply_of_ne_of_ne (by omega) (by omega), h.low]
  high := by
    rw [swap_pointers, comp_apply, Equiv.swap_apply_of_ne_of_ne (by omega) (by omega), h.high]
  guard := by
    have hpa := h.place hfits ha han
    have hpb := h.place hfits hb hbn
    have hlongs := hfits.longs
    have hhigh := hfits.high
    simp only [sizeofSrBckptrInLongs] at hlongs
    rw [swap_memory (by omega) (by omega) (by omega) (by omega), h.guard]

theorem longwords_le_of_lt (hpos : 0 < length) (h : s.memory p < s.memory q) :
    s.longwords p length ≤ s.longwords q length := by
  obtain ⟨length, rfl⟩ := Nat.exists_eq_succ_of_ne_zero hpos.ne'
  rw [SortBuffer.longwords, SortBuffer.longwords, load, load, map_cons, map_cons]
  exact le_of_lt (List.Lex.rel (UInt32.lt_iff_toNat_lt.1 h))

theorem memory_le_of_longwords_le (hpos : 0 < length)
    (h : s.longwords p length ≤ s.longwords q length) : s.memory p ≤ s.memory q := by
  obtain ⟨length, rfl⟩ := Nat.exists_eq_succ_of_ne_zero hpos.ne'
  rcases h.lt_or_eq with hlt | heq
  · exact head_le_of_lt hlt
  · exact (List.cons.inj heq).1.le

theorem compareKeys_spec {tl : Nat} (hle : length ≤ tl) :
    (compareKeys s.memory tl p q ≠ .gt → s.longwords p length ≤ s.longwords q length) ∧
      (compareKeys s.memory tl p q ≠ .lt → s.longwords q length ≤ s.longwords p length) := by
  induction tl generalizing p q length with
  | zero =>
    obtain rfl : length = 0 := by omega
    exact ⟨fun _ => le_rfl, fun _ => le_rfl⟩
  | succ tl ih =>
    cases length with
    | zero => exact ⟨fun _ => le_rfl, fun _ => le_rfl⟩
    | succ length =>
      obtain ⟨ihle, ihge⟩ := ih (p := p + 1) (q := q + 1) (Nat.le_of_succ_le_succ hle)
      rw [compareKeys]
      split_ifs with heq hlt
      · rw [SortBuffer.longwords, SortBuffer.longwords, load, load, heq]
        exact ⟨fun h => cons_le_cons _ (ihle h), fun h => cons_le_cons _ (ihge h)⟩
      · exact ⟨fun _ => longwords_le_of_lt (Nat.succ_pos length) hlt, fun h => absurd rfl h⟩
      · have hgt : s.memory q < s.memory p := by
          rw [UInt32.lt_iff_toNat_lt] at hlt ⊢
          have hne : (s.memory p).toNat ≠ (s.memory q).toNat := fun h => heq (UInt32.toNat_inj.1 h)
          omega
        exact ⟨fun h => absurd rfl h, fun _ => longwords_le_of_lt (Nat.succ_pos length) hgt⟩

theorem longwords_le_of_le {more : Nat} (hle : length ≤ more)
    (h : s.longwords p more ≤ s.longwords q more) :
    s.longwords p length ≤ s.longwords q length := by
  induction length generalizing p q more with
  | zero => exact le_rfl
  | succ length ih =>
    obtain ⟨more, rfl⟩ := Nat.exists_eq_succ_of_ne_zero (Nat.ne_of_gt (Nat.lt_of_lt_of_le
      (Nat.succ_pos length) hle))
    have hmem := memory_le_of_longwords_le (Nat.succ_pos more) h
    rcases UInt32.lt_or_eq_of_le hmem with hlt | heq
    · exact longwords_le_of_lt (Nat.succ_pos length) hlt
    · rw [SortBuffer.longwords, SortBuffer.longwords, load, load, map_cons, map_cons, heq] at h ⊢
      refine cons_le_cons _ (ih (Nat.le_of_succ_le_succ hle) ?_)
      by_contra hlt
      exact absurd h (not_le_of_gt (List.Lex.cons (lt_of_not_ge hlt)))

theorem rank_le_of_first_lt (hfits : scb.Fits n) (h : s.first a < s.first b) :
    rank scb s a ≤ rank scb s b :=
  longwords_le_of_lt (Nat.sub_pos_of_lt hfits.longs) h

theorem first_le_of_rank_le (hfits : scb.Fits n) (h : rank scb s a ≤ rank scb s b) :
    s.first a ≤ s.first b :=
  memory_le_of_longwords_le (Nat.sub_pos_of_lt hfits.longs) h

theorem rank_le_of_compareSlots (h : compareSlots scb s a b ≠ .gt) :
    rank scb s a ≤ rank scb s b :=
  (compareKeys_spec (Nat.sub_le_sub_left (by decide) _)).1 h

theorem rank_ge_of_compareSlots (h : compareSlots scb s a b ≠ .lt) :
    rank scb s b ≤ rank scb s a :=
  (compareKeys_spec (Nat.sub_le_sub_left (by decide) _)).2 h

theorem Laid.first_next (h : Laid scb n s) : s.first (n + 1) = 0xFFFFFFFF := by
  rw [SortBuffer.first, h.high, h.guard]

/-- Pointers have moved within a part; the records are as before. -/
structure Moved (scb : SortArea) (n : Nat) (p : Part) (s s' : SortBuffer) : Prop where
  laid : Laid scb n s'
  records : ∀ k, 1 ≤ k → k ≤ n →
    load s'.memory (scb.keyAddress k) (scb.longs - sizeofSrBckptrInLongs) =
      load s.memory (scb.keyAddress k) (scb.longs - sizeofSrBckptrInLongs)
  outside : ∀ k, ¬ p.Has k → s'.pointers k = s.pointers k
  inside : ∀ k, p.Has k → ∃ k', p.Has k' ∧ s'.pointers k = s.pointers k'
  next : s'.nextPointer = s.nextPointer
  last : s'.lastRecord = s.lastRecord

variable {p q : Part} {t : SortBuffer}

theorem Laid.moved (h : Laid scb n s) (p : Part) : Moved scb n p s s :=
  ⟨h, fun _ _ _ => rfl, fun _ _ => rfl, fun k hk => ⟨k, hk, rfl⟩, rfl, rfl⟩

theorem Moved.trans (h : Moved scb n p s s') (h' : Moved scb n p s' t) : Moved scb n p s t where
  laid := h'.laid
  records k hk hkn := (h'.records k hk hkn).trans (h.records k hk hkn)
  outside k hk := (h'.outside k hk).trans (h.outside k hk)
  inside k hk := by
    obtain ⟨i, hi, hki⟩ := h'.inside k hk
    obtain ⟨j, hj, hij⟩ := h.inside i hi
    exact ⟨j, hj, hki.trans hij⟩
  next := h'.next.trans h.next
  last := h'.last.trans h.last

theorem Moved.mono (h : Moved scb n p s s') (hpq : ∀ k, p.Has k → q.Has k) :
    Moved scb n q s s' where
  laid := h.laid
  records := h.records
  outside k hk := h.outside k fun hp => hk (hpq k hp)
  inside k hk := by
    by_cases hp : p.Has k
    · obtain ⟨i, hi, hki⟩ := h.inside k hp
      exact ⟨i, hpq i hi, hki⟩
    · exact ⟨k, hk, h.outside k hp⟩
  next := h.next
  last := h.last

theorem Laid.swap_moved (h : Laid scb n s) (hfits : scb.Fits n) (hp : 1 ≤ p.1) (hpn : p.2 ≤ n)
    (ha : p.Has a) (hb : p.Has b) : Moved scb n p s (Sort.swap scb a b s) where
  laid := h.swap hfits (hp.trans ha.1) (ha.2.trans hpn) (hp.trans hb.1) (hb.2.trans hpn)
  records k hk hkn := by
    obtain ⟨i, hi, hin, heq⟩ := h.exists_slot hk hkn
    rw [← heq]
    exact h.swap_load hfits (hp.trans ha.1) (ha.2.trans hpn) (hp.trans hb.1) (hb.2.trans hpn) hi hin
  outside k hk := by
    have hka : k ≠ a := fun heq => hk (heq ▸ ha)
    have hkb : k ≠ b := fun heq => hk (heq ▸ hb)
    rw [swap_pointers, comp_apply, Equiv.swap_apply_of_ne_of_ne hka hkb]
  inside k hk := by
    refine ⟨Equiv.swap a b k, ?_, by rw [swap_pointers, comp_apply]⟩
    rw [Equiv.swap_apply_def]
    split_ifs
    exacts [hb, ha, hk]
  next := rfl
  last := rfl

theorem Moved.rank_eq (h : Moved scb n p s s') (hs : Laid scb n s) (hb : 1 ≤ b) (hbn : b ≤ n)
    (heq : s'.pointers a = s.pointers b) : rank scb s' a = rank scb s b := by
  obtain ⟨i, hi, hin, hbi⟩ := hs.exists_keyAddress hb hbn
  rw [rank, rank, heq, hbi, SortBuffer.longwords, SortBuffer.longwords, h.records i hi hin]

theorem Moved.first_eq (h : Moved scb n p s s') (hs : Laid scb n s) (hfits : scb.Fits n)
    (hb : 1 ≤ b) (hbn : b ≤ n) (heq : s'.pointers a = s.pointers b) : s'.first a = s.first b := by
  obtain ⟨i, hi, hin, hbi⟩ := hs.exists_keyAddress hb hbn
  rw [SortBuffer.first, SortBuffer.first, heq, hbi]
  exact load_apply (i := 0) (h.records i hi hin) (Nat.sub_pos_of_lt hfits.longs)

theorem Moved.first_next (h : Moved scb n p s s') (hs : Laid scb n s) (hfits : scb.Fits n)
    (hk : k ≤ n) (hp : ¬ p.Has (k + 1)) : s'.first (k + 1) = s.first (k + 1) := by
  rcases Nat.lt_or_eq_of_le hk with hlt | rfl
  · exact h.first_eq hs hfits (Nat.succ_pos k) hlt (h.outside _ hp)
  · rw [h.laid.first_next, hs.first_next]

theorem Moved.shuffled (h : Moved scb n p s s') (hs : Laid scb n s) (hp : 1 ≤ p.1)
    (hpn : p.2 ≤ n) : Shuffled n p (rank scb s) (rank scb s') where
  outside k hk hkn hkp := h.rank_eq hs hk hkn (h.outside k hkp)
  inside k hk := by
    obtain ⟨i, hi, hki⟩ := h.inside k hk
    exact ⟨i, hi, h.rank_eq hs (hp.trans hi.1) (hi.2.trans hpn) hki⟩

theorem Laid.swap_rank (h : Laid scb n s) (hfits : scb.Fits n) (ha : 1 ≤ a) (han : a ≤ n)
    (hb : 1 ≤ b) (hbn : b ≤ n) (hk : 1 ≤ k) (hkn : k ≤ n) :
    rank scb (Sort.swap scb a b s) k = rank scb s (Equiv.swap a b k) := by
  have hmoved : Moved scb n (1, n) s (Sort.swap scb a b s) :=
    h.swap_moved hfits le_rfl le_rfl ⟨ha, han⟩ ⟨hb, hbn⟩
  have hin : 1 ≤ Equiv.swap a b k ∧ Equiv.swap a b k ≤ n := by
    rw [Equiv.swap_apply_def]
    split_ifs <;> omega
  exact hmoved.rank_eq h hin.1 hin.2 (by rw [swap_pointers, comp_apply])

end Firebird.Jrd.Sort
