import Firebird.Common.SparseScan

/-!
# Where the accessor of a sparse bitmap goes

A position of the accessor is a place in the list of the values of the bitmap. From there `getNext`
and `getPrev` go to the neighbours in that list. `locate` finds its place, with one exception: when
the bucket of the key is missing and `locLessEqual` takes the last bucket before, the value is
counted down from the start of that bucket and not from its end.
-/
namespace Firebird.Common.SparseBitmap

open List

variable {n k top : Nat} {items before after : List (Bucket n)} {b : SparseBitmap n}
variable {acc : Accessor n} {L R : List Nat} {v w key : Nat}

/-- The buckets are good, and their values are values of the type. -/
structure Within (top : Nat) (items : List (Bucket n)) : Prop where
  good : Good items
  le_top : ∀ c ∈ items, c.startValue + n ≤ top

theorem add_le_of_lt {c d : Bucket n} (hc : c.startValue % n = 0) (hd : d.startValue % n = 0)
    (hlt : c.startValue < d.startValue) : c.startValue + n ≤ d.startValue := by
  have hmod : (d.startValue - c.startValue) % n = 0 :=
    Nat.sub_mod_eq_zero_of_mod_eq (hd.trans hc.symm)
  have hle := Nat.le_of_dvd (by omega) (Nat.dvd_of_mod_eq_zero hmod)
  omega

theorem mem_elements_iff : v ∈ elements items ↔ ∃ c ∈ items, ∃ j, c.bits.getLsbD j ∧
    v = c.startValue + j := by
  simp [elements, Bucket.mem_above]

theorem pairwise_elements (h : Good items) : (elements items).Pairwise (· < ·) := by
  rw [elements, pairwise_flatMap]
  refine ⟨fun c _ => c.pairwise_above 0, ?_⟩
  refine h.sorted.imp_of_mem ?_
  intro c d hc hd hlt x hx y hy
  have hle := add_le_of_lt (h.start c hc) (h.start d hd) hlt
  obtain ⟨i, -, hi, rfl⟩ := Bucket.mem_above.1 hx
  obtain ⟨j, -, -, rfl⟩ := Bucket.mem_above.1 hy
  have hin := BitVec.lt_of_getLsbD hi
  omega

theorem mem_elements (hn : n = 2 ^ k) (h : Good items) : v ∈ elements items ↔ Holds items v := by
  rw [mem_elements_iff]
  constructor
  · rintro ⟨c, hc, j, hj, rfl⟩
    have hlt := BitVec.lt_of_getLsbD hj
    have hmod : (c.startValue + j) % n = j := by
      rw [Nat.add_mod, h.start c hc, Nat.zero_add, Nat.mod_mod, Nat.mod_eq_of_lt hlt]
    have hal : aligned n (c.startValue + j) = c.startValue := by
      rw [aligned_eq hn, hmod]
      omega
    refine ⟨c, hc, hal.symm, ?_⟩
    rw [hal, Nat.add_sub_cancel_left]
    exact hj
  · rintro ⟨c, hc, hstart, hbit⟩
    refine ⟨c, hc, _, hbit, ?_⟩
    rw [hstart, aligned_eq hn]
    omega

@[simp]
theorem elements_nil : elements ([] : List (Bucket n)) = [] := rfl

@[simp]
theorem elements_append : elements (before ++ after) = elements before ++ elements after := by
  simp [elements]

@[simp]
theorem elements_cons {c : Bucket n} : elements (c :: items) = c.above 0 ++ elements items := by
  simp [elements]

/-- The accessor is on bit `j` of a bucket, with the values before it and behind it. -/
structure On (b : SparseBitmap n) (acc : Accessor n) (before : List (Bucket n)) (c : Bucket n)
    (after : List (Bucket n)) (j : Nat) : Prop where
  items : b.tree.items = before ++ c :: after
  curPos : acc.curPos = before.length
  bit : c.bits.getLsbD j
  mask : acc.bitMask = BitVec.twoPow n j
  value : acc.currentValue = c.startValue + j

/-- The accessor is on the value `v`; `L` are the values before it, `R` those behind it. -/
structure At (b : SparseBitmap n) (acc : Accessor n) (L : List Nat) (v : Nat) (R : List Nat) :
    Prop where
  bitmap : acc.bitmap = some b
  value : acc.currentValue = v
  place : (b.singular = true ∧ v = b.singularValue ∧ L = [] ∧ R = []) ∨
    (b.singular = false ∧ ∃ before c after j, On b acc before c after j ∧
      L = elements before ++ c.below j ∧ R = c.above (j + 1) ++ elements after)

theorem On.at {c : Bucket n} {j : Nat} (h : On b acc before c after j) (hb : acc.bitmap = some b)
    (hs : b.singular = false) :
    At b acc (elements before ++ c.below j) (c.startValue + j)
      (c.above (j + 1) ++ elements after) :=
  ⟨hb, h.value, .inr ⟨hs, before, c, after, j, h, rfl, rfl⟩⟩

theorem current_eq {c : Bucket n} {pos : Nat} (h : b.tree.items = before ++ c :: after)
    (hpos : pos = before.length) : (treeAccessor b pos).current = some c := by
  simp [treeAccessor, BePlusTree.current, h, hpos]

section

variable (hin : Within top b.tree.items)

include hin

theorem Within.value_lt {c : Bucket n} {j : Nat} (h : b.tree.items = before ++ c :: after)
    (hj : c.bits.getLsbD j) : c.startValue + j < top := by
  have hle := hin.le_top c (by simp [h])
  have hlt := BitVec.lt_of_getLsbD hj
  omega

theorem Within.top_pos {c : Bucket n} {j : Nat} (h : b.tree.items = before ++ c :: after)
    (hj : c.bits.getLsbD j) : 0 < top :=
  Nat.lt_of_le_of_lt (Nat.zero_le _) (hin.value_lt h hj)

theorem Within.scanUp_first (acc : Accessor n) {c : Bucket n}
    (h : b.tree.items = before ++ c :: after)
    (hb : acc.bitmap = some b) (hs : b.singular = false) (hpos : acc.curPos = before.length) :
    ∃ v rest, c.above 0 = v :: rest ∧
      (scanUp top c.bits (n + 1) 1#n c.startValue).1 = true ∧
      At b (acc.stop (scanUp top c.bits (n + 1) 1#n c.startValue)).2 (elements before) v
        (rest ++ elements after) := by
  have hmem : c ∈ b.tree.items := by simp [h]
  have hne := Bucket.above_ne_nil (hin.good.bits c hmem)
  have hle := hin.le_top c hmem
  have hnpos : 0 < n := by
    by_contra hzero
    apply hne
    exact c.above_of_le (by omega)
  have hone : (1#n) = BitVec.twoPow n 0 := by simp [BitVec.twoPow]
  have hstart : c.startValue = (c.startValue + 0) % top := by
    rw [Nat.add_zero, Nat.mod_eq_of_lt (by omega)]
  rcases scanUp_spec top c (Nat.zero_le n) (by omega : n - 0 < n + 1) with
    ⟨hnil, -⟩ | ⟨j, hj, hbit, habove, hbelow, hscan⟩
  · exact absurd hnil hne
  · rw [← hone, ← hstart] at hscan
    have hlt := hin.value_lt h hbit
    rw [Nat.mod_eq_of_lt hlt] at hscan
    refine ⟨_, _, habove, by rw [hscan], ?_⟩
    rw [hscan]
    have hon : On b (acc.stop (true, BitVec.twoPow n j, c.startValue + j)).2 before c after j :=
      ⟨h, hpos, hbit, rfl, rfl⟩
    have hat := hon.at hb hs
    rwa [hbelow, c.below_zero, append_nil] at hat

theorem Within.scanDown_last (acc : Accessor n) {c : Bucket n}
    (h : b.tree.items = before ++ c :: after)
    (hb : acc.bitmap = some b) (hs : b.singular = false) (hpos : acc.curPos = before.length) :
    ∃ v rest, c.above 0 = rest ++ [v] ∧
      (scanDown top c.bits (n + 1) (highBit n) ((c.startValue + n - 1) % top)).1 = true ∧
      At b (acc.stop (scanDown top c.bits (n + 1) (highBit n) ((c.startValue + n - 1) % top))).2
        (elements before ++ rest) v (elements after) := by
  have hmem : c ∈ b.tree.items := by simp [h]
  have hne := Bucket.above_ne_nil (hin.good.bits c hmem)
  have hle := hin.le_top c hmem
  have hnpos : 0 < n := by
    by_contra hzero
    apply hne
    exact c.above_of_le (by omega)
  have hmask : highBit n = maskBefore n n := by
    rw [highBit, maskBefore, if_neg (by omega)]
    rfl
  have hvalue : (c.startValue + n - 1) % top = (c.startValue + n + (top - 1)) % top := by
    rw [show c.startValue + n + (top - 1) = c.startValue + n - 1 + top by omega, Nat.add_mod_right]
  rcases scanDown_spec (by omega : 0 < top) c c.startValue (Nat.le_refl n) (Nat.lt_succ_self n) with
    ⟨hnil, -⟩ | ⟨j, hj, hbit, hbelow, habove, hscan⟩
  · rw [← c.below_append_above (Nat.le_refl n), hnil, c.above_of_le (Nat.le_refl n)] at hne
    exact absurd rfl hne
  · rw [← hmask, ← hvalue] at hscan
    have hlt := hin.value_lt h hbit
    rw [Nat.mod_eq_of_lt hlt] at hscan
    have hall : c.above 0 = c.below j ++ [c.startValue + j] := by
      rw [← c.below_append_above (Nat.le_refl n), c.above_of_le (Nat.le_refl n), append_nil, hbelow]
    refine ⟨_, _, hall, by rw [hscan], ?_⟩
    rw [hscan]
    have hon : On b (acc.stop (true, BitVec.twoPow n j, c.startValue + j)).2 before c after j :=
      ⟨h, hpos, hbit, rfl, rfl⟩
    have hat := hon.at hb hs
    rwa [habove, c.above_of_le (Nat.le_refl n), nil_append] at hat

theorem Within.scanUp_from (acc : Accessor n) {c : Bucket n} {i : Nat}
    (h : b.tree.items = before ++ c :: after) (hb : acc.bitmap = some b) (hs : b.singular = false)
    (hpos : acc.curPos = before.length) (hi : i ≤ n) {value : Nat}
    (hvalue : value = (c.startValue + i) % top) :
    let r := scanUp top c.bits (n + 1) (BitVec.twoPow n i) value
    (∃ w R, c.above i ++ elements after = w :: R ∧ r.1 = true ∧
      At b (acc.stop r).2 (elements before ++ c.below i) w R) ∨
    (c.above i ++ elements after = [] ∧ r.1 = false ∧
      (treeAccessor b before.length).getNext.1 = false) ∨
    ∃ d w R, c.above i ++ elements after = w :: R ∧ r.1 = false ∧
      (treeAccessor b before.length).getNext = (true, treeAccessor b (before.length + 1)) ∧
      (treeAccessor b (before.length + 1)).current = some d ∧
      (scanUp top d.bits (n + 1) 1#n d.startValue).1 = true ∧
      ∀ acc : Accessor n, acc.bitmap = some b → acc.curPos = before.length + 1 →
        At b (acc.stop (scanUp top d.bits (n + 1) 1#n d.startValue)).2
          (elements before ++ c.below i) w R := by
  subst hvalue
  rcases scanUp_spec top c hi (by omega : n - i < n + 1) with
    ⟨hnil, hscan⟩ | ⟨j, hj, hbit, habove, hbelow, hscan⟩
  · -- the bucket has no more values
    right
    have hall : c.below i = c.above 0 := by
      rw [← c.below_append_above hi, hnil, append_nil]
    rw [hnil, nil_append, hall]
    cases after with
    | nil => exact .inl ⟨rfl, hscan, by simp [treeAccessor, BePlusTree.getNext, h]⟩
    | cons d after =>
      have hd : b.tree.items = (before ++ [c]) ++ d :: after := by rw [h]; simp
      have hlen : before.length + 1 = (before ++ [c]).length := by simp
      obtain ⟨w, rest, hfirst, hfound, -⟩ :=
        hin.scanUp_first ⟨some b, before.length + 1, 0, 0⟩ hd rfl hs hlen
      refine .inr ⟨d, w, rest ++ elements after, by rw [elements_cons, hfirst]; rfl, hscan,
        by simp [treeAccessor, BePlusTree.getNext, h], current_eq hd hlen, hfound,
        fun acc hb hpos => ?_⟩
      obtain ⟨w', rest', hfirst', -, hat⟩ := hin.scanUp_first acc hd hb hs (hpos.trans hlen)
      obtain ⟨rfl, rfl⟩ := cons.inj (hfirst.symm.trans hfirst')
      simpa using hat
  · left
    rw [hscan, habove, Nat.mod_eq_of_lt (hin.value_lt h hbit), ← hbelow]
    exact ⟨_, _, rfl, rfl, On.at ⟨h, hpos, hbit, rfl, rfl⟩ hb hs⟩

theorem Within.scanDown_from (acc : Accessor n) {c : Bucket n} {m : Nat}
    (h : b.tree.items = before ++ c :: after) (hb : acc.bitmap = some b) (hs : b.singular = false)
    (hpos : acc.curPos = before.length) (htop : 0 < top) (hm : m ≤ n) {value : Nat}
    (hvalue : value = (c.startValue + m + (top - 1)) % top) :
    let r := scanDown top c.bits (n + 1) (maskBefore n m) value
    (∃ w L, elements before ++ c.below m = L ++ [w] ∧ r.1 = true ∧
      At b (acc.stop r).2 L w (c.above m ++ elements after)) ∨
    (elements before ++ c.below m = [] ∧ r.1 = false ∧
      (treeAccessor b before.length).getPrev.1 = false) ∨
    ∃ d w L, elements before ++ c.below m = L ++ [w] ∧ r.1 = false ∧
      (treeAccessor b before.length).getPrev = (true, treeAccessor b (before.length - 1)) ∧
      (treeAccessor b (before.length - 1)).current = some d ∧
      (scanDown top d.bits (n + 1) (highBit n) ((d.startValue + n - 1) % top)).1 = true ∧
      ∀ acc : Accessor n, acc.bitmap = some b → acc.curPos = before.length - 1 →
        At b (acc.stop (scanDown top d.bits (n + 1) (highBit n)
          ((d.startValue + n - 1) % top))).2 L w (c.above m ++ elements after) := by
  subst hvalue
  rcases scanDown_spec htop c c.startValue hm (by omega : m < n + 1) with
    ⟨hnil, hscan⟩ | ⟨j, hj, hbit, hbelow, habove, hscan⟩
  · right
    have hall : c.above m = c.above 0 := by
      rw [← c.below_append_above hm, hnil, nil_append]
    rw [hnil, append_nil, hall]
    rcases eq_nil_or_concat before with rfl | ⟨before, d, rfl⟩
    · exact .inl ⟨rfl, hscan, by simp [treeAccessor, BePlusTree.getPrev]⟩
    · rw [concat_eq_append] at h ⊢
      have hd : b.tree.items = before ++ d :: (c :: after) := by rw [h]; simp
      have hlen : (before ++ [d]).length - 1 = before.length := by simp
      obtain ⟨w, rest, hlast, hfound, -⟩ :=
        hin.scanDown_last ⟨some b, before.length, 0, 0⟩ hd rfl hs rfl
      refine .inr ⟨d, w, elements before ++ rest, by simp [hlast], hscan,
        by simp [treeAccessor, BePlusTree.getPrev], current_eq hd hlen, hfound,
        fun acc hb hpos => ?_⟩
      obtain ⟨w', rest', hlast', -, hat⟩ := hin.scanDown_last acc hd hb hs (hpos.trans hlen)
      obtain ⟨rfl, hw⟩ := append_inj' (hlast.symm.trans hlast') rfl
      obtain rfl : w = w' := by simpa using hw
      simpa using hat
  · left
    rw [hscan, hbelow, Nat.mod_eq_of_lt (hin.value_lt h hbit), ← habove, ← append_assoc]
    exact ⟨_, _, rfl, rfl, On.at ⟨h, hpos, hbit, rfl, rfl⟩ hb hs⟩

theorem At.getNext (h : At b acc L v R) :
    (R = [] ∧ acc.getNext top = (false, acc)) ∨
    ∃ w R', R = w :: R' ∧ (acc.getNext top).1 = true ∧ At b (acc.getNext top).2 (L ++ [v]) w
      R' := by
  obtain ⟨bitmap, curPos, mask, value⟩ := acc
  obtain ⟨hb, hv, hplace⟩ := h
  obtain rfl : bitmap = some b := hb
  obtain rfl : value = v := hv
  simp only [Accessor.getNext]
  rcases hplace with ⟨hs, -, rfl, rfl⟩ | ⟨hs, before, c, after, j, hon, rfl, rfl⟩
  · exact .inl ⟨rfl, by rw [if_pos hs]⟩
  · obtain ⟨hitems, rfl, hbitj, rfl, rfl⟩ := hon
    have hjn := BitVec.lt_of_getLsbD hbitj
    have hcut : elements before ++ c.below (j + 1) =
        elements before ++ c.below j ++ [c.startValue + j] := by
      rw [c.below_succ, if_pos hbitj, append_assoc]
    rw [if_neg (by simp [hs]), current_eq hitems rfl]
    simp only [twoPow_shiftLeft_one, Nat.add_assoc, ← hcut]
    rcases hin.scanUp_from ⟨some b, before.length, BitVec.twoPow n j, c.startValue + j⟩ hitems rfl
      hs rfl (by omega : j + 1 ≤ n) rfl with
      ⟨w, R, hR, hfound, hat⟩ | ⟨hR, hfound, hgo⟩ | ⟨d, w, R, hR, hfound, hgo, hd, hfirst, hat⟩
    · simp only [hfound, if_true]
      exact .inr ⟨w, R, hR, hfound, hat⟩
    · simp only [hfound, hgo]
      exact .inl ⟨hR, rfl⟩
    · simp only [hfound, hgo, hd, hfirst]
      exact .inr ⟨w, R, hR, hfirst, hat _ rfl rfl⟩

theorem At.getPrev (h : At b acc L v R) :
    (L = [] ∧ acc.getPrev top = (false, acc)) ∨
    ∃ w L', L = L' ++ [w] ∧ (acc.getPrev top).1 = true ∧
      At b (acc.getPrev top).2 L' w (v :: R) := by
  obtain ⟨bitmap, curPos, mask, value⟩ := acc
  obtain ⟨hb, hv, hplace⟩ := h
  obtain rfl : bitmap = some b := hb
  obtain rfl : value = v := hv
  simp only [Accessor.getPrev]
  rcases hplace with ⟨hs, -, rfl, rfl⟩ | ⟨hs, before, c, after, j, hon, rfl, rfl⟩
  · exact .inl ⟨rfl, by rw [if_pos hs]⟩
  · obtain ⟨hitems, rfl, hbitj, rfl, rfl⟩ := hon
    have hjn := BitVec.lt_of_getLsbD hbitj
    have hcut : c.above j ++ elements after =
        (c.startValue + j) :: (c.above (j + 1) ++ elements after) := by
      rw [c.above_eq hjn, if_pos hbitj]
      rfl
    rw [if_neg (by simp [hs]), current_eq hitems rfl]
    simp only [twoPow_ushiftRight_one hjn, ← hcut]
    rcases hin.scanDown_from ⟨some b, before.length, BitVec.twoPow n j, c.startValue + j⟩ hitems rfl
      hs rfl (hin.top_pos hitems hbitj) (by omega : j ≤ n) rfl with
      ⟨w, L, hL, hfound, hat⟩ | ⟨hL, hfound, hgo⟩ | ⟨d, w, L, hL, hfound, hgo, hd, hlast, hat⟩
    · simp only [hfound, if_true]
      exact .inr ⟨w, L, hL, hfound, hat⟩
    · simp only [hfound, hgo]
      exact .inl ⟨hL, rfl⟩
    · simp only [hfound, hgo, hd, hlast]
      exact .inr ⟨w, L, hL, hlast, hat _ rfl rfl⟩

theorem getFirst_nonsingular (hb : acc.bitmap = some b) (hs : b.singular = false) :
    (elements b.tree.items = [] ∧ (acc.getFirst top).1 = false) ∨
    ∃ v R, elements b.tree.items = v :: R ∧ (acc.getFirst top).1 = true ∧
      At b (acc.getFirst top).2 [] v R := by
  obtain ⟨bitmap, curPos, mask, value⟩ := acc
  obtain rfl : bitmap = some b := hb
  simp only [Accessor.getFirst]
  rw [if_neg (by simp [hs])]
  cases hitems : b.tree.items with
  | nil => exact .inl ⟨rfl, by simp [treeAccessor, BePlusTree.getFirst, hitems]⟩
  | cons c after =>
    have hgo : (treeAccessor b curPos).getFirst = (true, treeAccessor b 0) := by
      simp [treeAccessor, BePlusTree.getFirst, hitems]
    have hsplit : b.tree.items = [] ++ c :: after := hitems
    obtain ⟨v, rest, habove, hfound, hat⟩ :=
      hin.scanUp_first ⟨some b, 0, mask, value⟩ hsplit rfl hs rfl
    have hcur : (treeAccessor b 0).current = some c := current_eq hsplit rfl
    right
    refine ⟨v, rest ++ elements after, by rw [elements_cons, habove]; rfl, ?_⟩
    simp only [hgo, hcur]
    exact ⟨hfound, hat⟩

theorem getLast_nonsingular (hb : acc.bitmap = some b) (hs : b.singular = false) :
    (elements b.tree.items = [] ∧ (acc.getLast top).1 = false) ∨
    ∃ L v, elements b.tree.items = L ++ [v] ∧ (acc.getLast top).1 = true ∧
      At b (acc.getLast top).2 L v [] := by
  obtain ⟨bitmap, curPos, mask, value⟩ := acc
  obtain rfl : bitmap = some b := hb
  simp only [Accessor.getLast]
  rw [if_neg (by simp [hs])]
  rcases eq_nil_or_concat b.tree.items with hitems | ⟨before, c, hitems⟩
  · exact .inl ⟨by rw [hitems]; rfl, by simp [treeAccessor, BePlusTree.getLast, hitems]⟩
  · rw [concat_eq_append] at hitems
    have hgo : (treeAccessor b curPos).getLast = (true, treeAccessor b before.length) := by
      simp [treeAccessor, BePlusTree.getLast, hitems]
    obtain ⟨v, rest, hlast, hfound, hat⟩ :=
      hin.scanDown_last ⟨some b, before.length, mask, value⟩ hitems rfl hs rfl
    have hcur : (treeAccessor b before.length).current = some c := current_eq hitems rfl
    right
    refine ⟨elements before ++ rest, v, ?_, ?_⟩
    · rw [hitems, elements_append, elements_cons, hlast]
      simp
    · simp only [hgo, hcur]
      exact ⟨hfound, hat⟩

theorem Within.sides (hn : n = 2 ^ k) (hbefore : ∀ c ∈ before, c.startValue < aligned n key)
    (hafter : ∀ c ∈ after, aligned n key < c.startValue)
    (hsub : ∀ c ∈ before ++ after, c ∈ b.tree.items) :
    (∀ x ∈ elements before, x < aligned n key) ∧ ∀ x ∈ elements after, key < x := by
  refine ⟨fun x hx => ?_, fun x hx => ?_⟩ <;> obtain ⟨c, hc, j, hj, rfl⟩ := mem_elements_iff.1 hx
  · have hle := @add_le_of_lt _ c ⟨aligned n key, 0⟩ (hin.good.start c (hsub c (by simp [hc])))
      (aligned_mod hn key) (hbefore c hc)
    have hlt := BitVec.lt_of_getLsbD hj
    dsimp only at hle
    omega
  · have hle := @add_le_of_lt _ ⟨aligned n key, 0⟩ c (aligned_mod hn key)
      (hin.good.start c (hsub c (by simp [hc]))) (hafter c hc)
    have hlt := sub_aligned_lt hn key
    dsimp only at hle
    omega

theorem Within.cut (hn : n = 2 ^ k) {c : Bucket n} (h : b.tree.items = before ++ c :: after)
    (hstart : c.startValue = aligned n key) {i : Nat} (hi : i ≤ n)
    (hkey : c.startValue + i ≤ key + 1) :
    elements b.tree.items =
        (elements before ++ c.below i) ++ (c.above i ++ elements after) ∧
      (∀ x ∈ elements before ++ c.below i, x < c.startValue + i) ∧
      ∀ x ∈ c.above i ++ elements after, c.startValue + i ≤ x := by
  obtain ⟨hlt, hgt⟩ := (h ▸ hin.good : Good (before ++ c :: after)).lt_of_mem
  obtain ⟨hbefore, hafter⟩ := hin.sides hn (fun d hd => hstart ▸ hlt d hd)
    (fun d hd => hstart ▸ hgt d hd) (fun d hd => by rw [h]; simp at hd ⊢; tauto)
  refine ⟨?_, fun x hx => ?_, fun x hx => ?_⟩
  · rw [h, elements_append, elements_cons, ← c.below_append_above hi]
    simp
  · rcases mem_append.1 hx with hx | hx
    · have := hbefore x hx
      omega
    · obtain ⟨j, hj, -, rfl⟩ := Bucket.mem_below.1 hx
      omega
  · rcases mem_append.1 hx with hx | hx
    · obtain ⟨j, hj, -, rfl⟩ := Bucket.mem_above.1 hx
      omega
    · have := hafter x hx
      omega

theorem locateBucket_equal (hn : n = 2 ^ k) (hb : acc.bitmap = some b) (hs : b.singular = false) :
    (key ∉ elements b.tree.items ∧ (acc.locateBucket top b .locEqual key).1 = false) ∨
    ∃ L R, elements b.tree.items = L ++ key :: R ∧
      (acc.locateBucket top b .locEqual key).1 = true ∧
      At b (acc.locateBucket top b .locEqual key).2 L key R := by
  obtain ⟨bitmap, curPos, mask, value⟩ := acc
  obtain rfl : bitmap = some b := hb
  have hle := aligned_le hn key
  have hlt := sub_aligned_lt hn key
  rcases hin.good.split (aligned n key) with ⟨before, c, after, hitems, hstart, hfind⟩ |
    ⟨before, after, hitems, hbefore, hafter, hfind⟩
  · have hgo : (treeAccessor b curPos).locate Bucket.startValue .locEqual (aligned n key) =
        (true, treeAccessor b before.length) := by
      have hget : b.tree.items[before.length]? = some c := by rw [hitems, getElem?_append_length]
      simp [treeAccessor, BePlusTree.locate, hfind, hget, hstart]
    have hcur : (treeAccessor b before.length).current = some c := current_eq hitems rfl
    simp only [Accessor.locateBucket, hgo, hcur]
    have hkey : c.startValue + (key - aligned n key) = key := by omega
    cases hbit : c.bits.getLsbD (key - aligned n key) with
    | true =>
      right
      have hon : On b ⟨some b, before.length, Common.bitMask n key, key⟩ before c after
          (key - aligned n key) := ⟨hitems, rfl, hbit, rfl, hkey.symm⟩
      have hat := hon.at rfl hs
      rw [hkey] at hat
      refine ⟨_, _, ?_, ?_, hat⟩
      · rw [(hin.cut hn hitems hstart hlt.le (by omega)).1, c.above_eq hlt, if_pos hbit, hkey]
        rfl
      · simpa using (and_bitMask_ne_zero hn c.bits key).2 hbit
    | false =>
      left
      refine ⟨?_, ?_⟩
      · rw [mem_elements hn hin.good, hitems,
          Good.holds_iff (hitems ▸ hin.good : Good (before ++ c :: after)) hstart]
        simp [Bucket.Has, hbit]
      · have hzero := (and_bitMask_ne_zero hn c.bits key).not.2 (by simp [hbit])
        simpa using hzero
  · left
    refine ⟨?_, ?_⟩
    · rw [mem_elements hn hin.good]
      refine not_holds_of_ne fun c hc => ?_
      rw [hitems] at hc
      rcases mem_append.1 hc with hc | hc
      · exact Nat.ne_of_lt (hbefore c hc)
      · exact Nat.ne_of_gt (hafter c hc)
    · have hgo : ((treeAccessor b curPos).locate Bucket.startValue .locEqual (aligned n key)).1 =
          false := by
        have hget : b.tree.items[before.length]?.map Bucket.startValue ≠ some (aligned n key) := by
          rw [hitems]
          cases after with
          | nil => simp
          | cons d after => simpa using Nat.ne_of_gt (hafter d (by simp))
        simp only [treeAccessor, BePlusTree.locate, hfind]
        simpa using hget
      simp [Accessor.locateBucket, hgo]

theorem locateBucket_greatEqual (hn : n = 2 ^ k) (hb : acc.bitmap = some b)
    (hs : b.singular = false) (hkey : key < top) :
    ∃ L R, elements b.tree.items = L ++ R ∧ (∀ x ∈ L, x < key) ∧ (∀ x ∈ R, key ≤ x) ∧
      ((R = [] ∧ (acc.locateBucket top b .locGreatEqual key).1 = false) ∨
        ∃ v R', R = v :: R' ∧ (acc.locateBucket top b .locGreatEqual key).1 = true ∧
          At b (acc.locateBucket top b .locGreatEqual key).2 L v R') := by
  obtain ⟨bitmap, curPos, mask, value⟩ := acc
  obtain rfl : bitmap = some b := hb
  have hle := aligned_le hn key
  have hlt := sub_aligned_lt hn key
  rcases hin.good.split (aligned n key) with ⟨before, c, after, hitems, hstart, hfind⟩ |
    ⟨before, after, hitems, hbefore, hafter, hfind⟩
  · -- the bucket of the key is there
    obtain ⟨hall, hbelow, habove⟩ := hin.cut hn hitems hstart hlt.le (by omega)
    have hlen : before.length < b.tree.items.length := by simp [hitems]
    have hgo : (treeAccessor b curPos).locate Bucket.startValue .locGreatEqual (aligned n key) =
        (true, treeAccessor b before.length) := by
      simp [treeAccessor, BePlusTree.locate, hfind, hlen]
    have hcur : (treeAccessor b before.length).current = some c := current_eq hitems rfl
    have hpos : (treeAccessor b before.length).curPos = before.length := rfl
    refine ⟨_, _, hall, fun x hx => ?_, fun x hx => ?_, ?_⟩
    · have := hbelow x hx
      omega
    · have := habove x hx
      omega
    · have hvalue : key = (c.startValue + (key - aligned n key)) % top := by
        rw [Nat.mod_eq_of_lt (by omega)]
        omega
      simp only [Accessor.locateBucket, hgo, Accessor.greatEqual, hpos, hcur, hstart, if_true,
        bitMask_eq]
      rcases hin.scanUp_from ⟨some b, before.length, mask, value⟩ hitems rfl hs rfl hlt.le hvalue
        with ⟨w, R, hR, hfound, hat⟩ | ⟨hR, hfound, hnext⟩ |
          ⟨d, w, R, hR, hfound, hnext, hd, hfirst, hat⟩
      · simp only [hfound, if_true]
        exact .inr ⟨w, R, hR, hfound, hat⟩
      · simp only [hfound, Accessor.stop, hnext]
        exact .inl ⟨hR, rfl⟩
      · simp only [hfound, Accessor.stop, hnext, hd, hfirst]
        exact .inr ⟨w, R, hR, rfl, hat ⟨some b, _, mask, value⟩ rfl rfl⟩
  · -- it is not; the next bucket, if there is one, has only values behind the key
    obtain ⟨hlow, hhigh⟩ := hin.sides hn hbefore hafter fun c hc => hitems ▸ hc
    refine ⟨elements before, elements after, by rw [hitems, elements_append], fun x hx => ?_,
      fun x hx => (hhigh x hx).le, ?_⟩
    · have := hlow x hx
      omega
    · cases after with
      | nil =>
        have hlen : b.tree.items.length = before.length := by simp [hitems]
        refine .inl ⟨rfl, ?_⟩
        simp [Accessor.locateBucket, treeAccessor, BePlusTree.locate, hfind, hlen]
      | cons c after =>
        have hlen : before.length < b.tree.items.length := by simp [hitems]
        have hgo : (treeAccessor b curPos).locate Bucket.startValue .locGreatEqual
            (aligned n key) = (true, treeAccessor b before.length) := by
          simp [treeAccessor, BePlusTree.locate, hfind, hlen]
        have hcur : (treeAccessor b before.length).current = some c := current_eq hitems rfl
        have hpos : (treeAccessor b before.length).curPos = before.length := rfl
        have hne : c.startValue ≠ aligned n key := Nat.ne_of_gt (hafter c (by simp))
        obtain ⟨w, rest, habove, hfound, hat⟩ := hin.scanUp_first
          ⟨some b, before.length, mask, value⟩ hitems rfl hs rfl
        right
        simp only [Accessor.locateBucket, hgo, if_false, Accessor.greatEqual, hpos, hcur, hne,
          hfound, elements_cons, habove]
        exact ⟨w, rest ++ elements after, rfl, hfound, hat⟩

theorem locateBucket_lessEqual (hn : n = 2 ^ k) (hb : acc.bitmap = some b)
    (hs : b.singular = false) (hkey : key < top)
    (hthere : ∃ c ∈ b.tree.items, c.startValue = aligned n key) :
    ∃ L R, elements b.tree.items = L ++ R ∧ (∀ x ∈ L, x ≤ key) ∧ (∀ x ∈ R, key < x) ∧
      ((L = [] ∧ (acc.locateBucket top b .locLessEqual key).1 = false) ∨
        ∃ L' v, L = L' ++ [v] ∧ (acc.locateBucket top b .locLessEqual key).1 = true ∧
          At b (acc.locateBucket top b .locLessEqual key).2 L' v R) := by
  obtain ⟨bitmap, curPos, mask, value⟩ := acc
  obtain rfl : bitmap = some b := hb
  have hle := aligned_le hn key
  have hlt := sub_aligned_lt hn key
  obtain ⟨before, c, after, hitems, hstart, hfind⟩ := hin.good.split_of_exists hthere
  obtain ⟨hall, hbelow, habove⟩ := hin.cut hn hitems hstart hlt (by omega)
  have hgo : (treeAccessor b curPos).locate Bucket.startValue .locLessEqual (aligned n key) =
      (true, treeAccessor b before.length) := by
    have hget : b.tree.items[before.length]? = some c := by rw [hitems, getElem?_append_length]
    simp [treeAccessor, BePlusTree.locate, hfind, hget, hstart]
  have hcur : (treeAccessor b before.length).current = some c := current_eq hitems rfl
  have hpos : (treeAccessor b before.length).curPos = before.length := rfl
  refine ⟨_, _, hall, fun x hx => ?_, fun x hx => ?_, ?_⟩
  · have := hbelow x hx
    omega
  · have := habove x hx
    omega
  · have hvalue : key = (c.startValue + (key - aligned n key + 1) + (top - 1)) % top := by
      rw [show c.startValue + (key - aligned n key + 1) + (top - 1) = key + top by omega,
        Nat.add_mod_right, Nat.mod_eq_of_lt hkey]
    have hmask : Common.bitMask n key = maskBefore n (key - aligned n key + 1) := rfl
    simp only [Accessor.locateBucket, hgo, Accessor.lessEqual, hpos, hcur, hstart, if_true, hmask]
    rcases hin.scanDown_from ⟨some b, before.length, mask, value⟩ hitems rfl hs rfl (by omega) hlt
      hvalue with
      ⟨w, L, hL, hfound, hat⟩ | ⟨hL, hfound, hprev⟩ | ⟨d, w, L, hL, hfound, hprev, hd, hlast, hat⟩
    · simp only [hfound, if_true]
      exact .inr ⟨L, w, hL, hfound, hat⟩
    · simp only [hfound, Accessor.stop, hprev]
      exact .inl ⟨hL, rfl⟩
    · simp only [hfound, Accessor.stop, hprev, hd, hlast]
      exact .inr ⟨L, w, hL, rfl, hat ⟨some b, _, mask, value⟩ rfl rfl⟩

theorem locateBucket_lessEqual_missing (hn : n = 2 ^ k) (hk : 1 ≤ k) (hb : acc.bitmap = some b)
    (hkey : key < top) (hmissing : ∀ c ∈ b.tree.items, c.startValue ≠ aligned n key) :
    ∃ L R, elements b.tree.items = L ++ R ∧ (∀ x ∈ L, x ≤ key) ∧ (∀ x ∈ R, key < x) ∧
      ((L = [] ∧ (acc.locateBucket top b .locLessEqual key).1 = false) ∨
        ∃ L' v, L = L' ++ [v] ∧ (acc.locateBucket top b .locLessEqual key).1 = true ∧
          (acc.locateBucket top b .locLessEqual key).2.currentValue ≠ v) := by
  obtain ⟨bitmap, curPos, mask, value⟩ := acc
  obtain rfl : bitmap = some b := hb
  have hle := aligned_le hn key
  obtain ⟨before, after, hitems, hbefore, hafter, hfind⟩ := hin.good.split_of_missing hmissing
  obtain ⟨hlow, hhigh⟩ := hin.sides hn hbefore hafter fun c hc => hitems ▸ hc
  have hget : ¬ (b.tree.items[before.length]?.map Bucket.startValue == some (aligned n key)) := by
    rw [hitems]
    cases after with
    | nil => simp
    | cons d after => simpa using Nat.ne_of_gt (hafter d (by simp))
  refine ⟨elements before, elements after, by rw [hitems, elements_append], fun x hx => ?_, hhigh,
    ?_⟩
  · have := hlow x hx
    omega
  · rcases eq_nil_or_concat before with rfl | ⟨before, c, rfl⟩
    · refine .inl ⟨rfl, ?_⟩
      have hgo : ((treeAccessor b curPos).locate Bucket.startValue .locLessEqual
          (aligned n key)).1 = false := by
        simp only [treeAccessor, BePlusTree.locate, hfind]
        rw [if_neg hget, if_pos length_nil]
      simp [Accessor.locateBucket, hgo]
    · rw [concat_eq_append] at hitems hfind hget hbefore ⊢
      have hgo : (treeAccessor b curPos).locate Bucket.startValue .locLessEqual
          (aligned n key) = (true, treeAccessor b before.length) := by
        simp only [treeAccessor, BePlusTree.locate, hfind]
        rw [if_neg hget, if_neg (by simp)]
        simp
      have hc : b.tree.items = before ++ c :: after := by rw [hitems]; simp
      have hcur : (treeAccessor b before.length).current = some c := current_eq hc rfl
      have hpos : (treeAccessor b before.length).curPos = before.length := rfl
      have hne : c.startValue ≠ aligned n key := Nat.ne_of_lt (hbefore c (by simp))
      have hmem : c ∈ b.tree.items := by simp [hc]
      have htop := hin.le_top c hmem
      have htwo : 2 ≤ n := by
        rw [hn]
        exact Nat.le_self_pow (by omega) 2
      have hmask : highBit n = maskBefore n n := by
        rw [highBit, maskBefore, if_neg (by omega)]
        rfl
      have hvalue : c.startValue = (c.startValue + (top + 1 - n) + n + (top - 1)) % top := by
        rw [show c.startValue + (top + 1 - n) + n + (top - 1) = c.startValue + top + top by omega,
          Nat.add_mod_right, Nat.add_mod_right, Nat.mod_eq_of_lt (by omega)]
      rcases scanDown_spec (by omega : 0 < top) c (c.startValue + (top + 1 - n)) (Nat.le_refl n)
          (Nat.lt_succ_self n) with ⟨hnil, -⟩ | ⟨i, hi, hbit, hbelow, -, hscan⟩
      · have hall := c.below_append_above (Nat.le_refl n)
        rw [hnil, c.above_of_le (Nat.le_refl n)] at hall
        exact absurd hall.symm (Bucket.above_ne_nil (hin.good.bits c hmem))
      · rw [← hmask, ← hvalue] at hscan
        have hall : c.above 0 = c.below i ++ [c.startValue + i] := by
          rw [← c.below_append_above (Nat.le_refl n), c.above_of_le (Nat.le_refl n), hbelow,
            append_nil]
        right
        simp only [Accessor.locateBucket, hgo, Bool.not_true, Bool.false_eq_true, if_false,
          Accessor.lessEqual, hpos, hcur, hne, hscan, if_true]
        refine ⟨elements before ++ c.below i, c.startValue + i, by simp [hall], rfl, ?_⟩
        have hval : (Accessor.stop ⟨some b, before.length, mask, value⟩ (true, BitVec.twoPow n i,
            (c.startValue + (top + 1 - n) + i) % top)).2.currentValue =
              (c.startValue + (top + 1 - n) + i) % top := rfl
        rw [hval]
        intro heq
        rw [show c.startValue + (top + 1 - n) + i = c.startValue + i + (top + 1 - n) by omega]
          at heq
        rcases Nat.lt_or_ge (c.startValue + i + (top + 1 - n)) top with hsmall | hlarge
        · rw [Nat.mod_eq_of_lt hsmall] at heq
          omega
        · rw [Nat.mod_eq_sub_mod hlarge, Nat.mod_eq_of_lt (by omega)] at heq
          omega

end

end Firebird.Common.SparseBitmap
