import Firebird.Common.SparseSet

/-!
# Union and intersection of sparse bitmaps

The loops of `bit_or` and `bit_and` change the tree that they walk over. What is in front of the
current bucket of the destination is done with, and both trees stay good all the time.
-/
namespace Firebird.Common.SparseBitmap

open List

variable {n k v : Nat} {b d s : Bucket n} {items before after source : List (Bucket n)}
  {dest : BePlusTree (Bucket n)} {destFound : Bool} {destValue fuel : Nat}

theorem getNext_append :
    (⟨before ++ d :: after, before.length⟩ : BePlusTree (Bucket n)).getNext =
      (!after.isEmpty,
        ⟨before ++ d :: after, if after.isEmpty then before.length else before.length + 1⟩) := by
  cases after <;> simp [BePlusTree.getNext]

theorem fastRemove_append :
    (⟨before ++ d :: after, before.length⟩ : BePlusTree (Bucket n)).fastRemove =
      (!after.isEmpty, ⟨before ++ after, before.length⟩) := by
  cases after <;> simp [BePlusTree.fastRemove, eraseIdx_append]

theorem valueOf_append {pos : Nat} (hpos : ∀ d ∈ after.head?, pos = before.length) (value : Nat) :
    ∀ d ∈ after.head?, valueOf ⟨before ++ after, pos⟩ value = d.startValue := by
  intro d hd
  cases after with
  | nil => simp at hd
  | cons e after =>
    obtain rfl : e = d := by simpa using hd
    simp [valueOf, BePlusTree.current, hpos e rfl]

theorem addAll_spec (hgood : Good dest.items) (hsource : Good source)
    (hlt : ∀ c ∈ dest.items, ∀ s ∈ source, c.startValue < s.startValue) :
    Good (source.foldl (fun dest s => (dest.add Bucket.startValue s).2) dest).items ∧
      ∀ v, Holds (source.foldl (fun dest s => (dest.add Bucket.startValue s).2) dest).items v ↔
        Holds dest.items v ∨ Holds source v := by
  induction source generalizing dest with
  | nil => exact ⟨hgood, by simp⟩
  | cons s source ih =>
    have hs : ∀ e ∈ source, s.startValue < e.startValue := (pairwise_cons.1 hsource.sorted).1
    have hadd := @add_append (Bucket n) Bucket.startValue dest.items [] s dest.curPos
      (fun c hc => hlt c hc s mem_cons_self) (by simp)
    rw [append_nil] at hadd
    have hgood' : Good (dest.items ++ [s]) :=
      Good.insert (by simpa using hgood) (hsource.bits s mem_cons_self)
        (hsource.start s mem_cons_self) (fun c hc => hlt c hc s mem_cons_self) (by simp)
    obtain ⟨hgood'', hmem⟩ := @ih ⟨dest.items ++ [s], dest.curPos⟩ hgood'
      (hsource.sublist (sublist_cons_self _ _)) (by
        intro c hc e he
        rcases mem_append.1 hc with hc | hc
        · exact hlt c hc e (mem_cons_of_mem _ he)
        · obtain rfl := mem_singleton.1 hc
          exact hs e he)
    rw [foldl_cons, hadd]
    refine ⟨hgood'', fun v => ?_⟩
    rw [hmem]
    simp [or_assoc]

/-- Where the loop of `bit_or` is: the buckets in front of the current one, and the others. While a
row of buckets is added, the accessor of the destination may be anywhere. -/
structure OrAt (source : List (Bucket n)) (dest : BePlusTree (Bucket n)) (destFound : Bool)
    (destValue : Nat) (before after : List (Bucket n)) : Prop where
  items : dest.items = before ++ after
  before_lt : ∀ c ∈ before, ∀ s ∈ source, c.startValue < s.startValue
  found : destFound = !after.isEmpty
  value : ∀ d ∈ after.head?, destValue = d.startValue
  pos : ∀ d ∈ after.head?, ∀ s ∈ source.head?, d.startValue ≤ s.startValue →
    dest.curPos = before.length

theorem Bucket.has_or_bits (hstart : b.startValue = s.startValue) :
    (Bucket.or s.bits b).Has v ↔ b.Has v ∨ s.Has v := by
  simp only [Bucket.Has, Bucket.or, BitVec.getLsbD_or, Bool.or_eq_true, hstart]
  tauto

theorem OrAt.next (hlt : ∀ c ∈ before ++ [d], ∀ s ∈ source, c.startValue < s.startValue)
    (value : Nat) :
    OrAt source
      ⟨before ++ d :: after, if after.isEmpty then before.length else before.length + 1⟩
      (!after.isEmpty)
      (valueOf ⟨before ++ d :: after, if after.isEmpty then before.length else before.length + 1⟩
        value) (before ++ [d]) after := by
  have happ : before ++ d :: after = before ++ [d] ++ after := by simp
  rw [happ]
  refine ⟨rfl, hlt, rfl, fun e he => (valueOf_append ?_ _ e he), ?_⟩
  · cases after <;> simp
  · cases after <;> simp

theorem orLoop_spec (hgood : Good dest.items) (hsource : Good source)
    (hat : OrAt source dest destFound destValue before after)
    (hfuel : after.length + source.length ≤ fuel) :
    ∃ tree, orLoop fuel source dest destFound destValue = some tree ∧ Good tree.items ∧
      ∀ v, Holds tree.items v ↔ Holds dest.items v ∨ Holds source v := by
  induction fuel generalizing source dest destFound destValue before after with
  | zero =>
    cases source with
    | nil => exact ⟨dest, by rw [orLoop], hgood, by simp⟩
    | cons s source => simp at hfuel
  | succ fuel ih =>
    cases source with
    | nil => exact ⟨dest, by rw [orLoop], hgood, by simp⟩
    | cons s source =>
      obtain ⟨hitems, hbefore, hfound, hvalue, hpos⟩ := hat
      have hs : ∀ e ∈ source, s.startValue < e.startValue := (pairwise_cons.1 hsource.sorted).1
      have hsource' : Good source := hsource.sublist (sublist_cons_self _ _)
      have hlts : ∀ c ∈ before, c.startValue < s.startValue :=
        fun c hc => hbefore c hc s mem_cons_self
      obtain ⟨items, pos⟩ := dest
      simp only at hitems hgood hpos
      subst hitems
      cases after with
      | nil =>
        obtain rfl : destFound = false := hfound
        rw [append_nil] at hgood ⊢
        obtain ⟨hgood', hmem⟩ := @addAll_spec n (s :: source) ⟨before, pos⟩ hgood hsource hbefore
        exact ⟨_, by simp only [orLoop, Bool.false_eq_true, if_false], hgood', hmem⟩
      | cons d after =>
        obtain rfl : destFound = true := hfound
        obtain rfl : destValue = d.startValue := hvalue d rfl
        have hd := hgood.lt_of_mem
        rw [length_cons, length_cons] at hfuel
        simp only [orLoop, if_true]
        split_ifs with hlt heq
        · -- The bucket of the destination is skipped.
          obtain rfl : pos = before.length := hpos d rfl s rfl (Nat.le_of_lt hlt)
          simp only [getNext_append]
          refine ih hgood hsource (OrAt.next ?_ _) (by rw [length_cons]; omega)
          intro c hc e he
          rcases mem_append.1 hc with hc | hc
          · exact hbefore c hc e he
          · obtain rfl := mem_singleton.1 hc
            rcases mem_cons.1 he with rfl | he
            · exact hlt
            · exact Nat.lt_trans hlt (hs e he)
        · -- The buckets have the same start.
          obtain rfl : pos = before.length := hpos d rfl s rfl (Nat.le_of_eq heq)
          have hbits : d.bits ||| s.bits ≠ 0 := by
            intro h
            exact hgood.bits d (by simp) (BitVec.or_eq_zero_iff.1 h).1
          have hgood' : Good (before ++ Bucket.or s.bits d :: after) := hgood.replace rfl hbits
          simp only [BePlusTree.modify, modify_append, getNext_append]
          have hnext : ∀ c ∈ before ++ [Bucket.or s.bits d], ∀ e ∈ source,
              c.startValue < e.startValue := by
            intro c hc e he
            rcases mem_append.1 hc with hc | hc
            · exact Nat.lt_trans (hlts c hc) (hs e he)
            · obtain rfl := mem_singleton.1 hc
              exact heq ▸ hs e he
          obtain ⟨tree, htree, hgood'', hmem⟩ := ih hgood' hsource' (OrAt.next hnext _) (by omega)
          refine ⟨tree, htree, hgood'', fun v => ?_⟩
          rw [hmem]
          simp only [holds_append, holds_cons, Bucket.has_or_bits heq]
          grind
        · -- The bucket of the source is added in front.
          have hgt : s.startValue < d.startValue := by omega
          have hafter : ∀ c ∈ d :: after, s.startValue < c.startValue := by
            intro c hc
            rcases mem_cons.1 hc with rfl | hc
            · exact hgt
            · exact Nat.lt_trans hgt (hd.2 c hc)
          have hadd := @add_append (Bucket n) Bucket.startValue before (d :: after) s pos hlts
            (fun c hc => hafter c (mem_of_mem_head? hc))
          have hgood' : Good (before ++ s :: d :: after) :=
            hgood.insert (hsource.bits s mem_cons_self) (hsource.start s mem_cons_self)
              hlts hafter
          have hunion : ∀ v, Holds (before ++ s :: d :: after) v ∨ Holds source v ↔
              Holds (before ++ d :: after) v ∨ Holds (s :: source) v := by
            intro v
            simp only [holds_append, holds_cons]
            tauto
          simp only [hadd]
          cases source with
          | nil =>
            refine ⟨_, rfl, hgood', fun v => ?_⟩
            rw [← hunion]
            simp
          | cons next source =>
            have happ : before ++ s :: d :: after = before ++ [s] ++ d :: after := by simp
            have hbefore' : ∀ c ∈ before ++ [s], ∀ e ∈ next :: source, c.startValue <
              e.startValue := by
              intro c hc e he
              rcases mem_append.1 hc with hc | hc
              · exact Nat.lt_trans (hlts c hc) (hs e he)
              · obtain rfl := mem_singleton.1 hc
                exact hs e he
            rw [happ] at hgood' hunion ⊢
            have hlocate : find Bucket.startValue (before ++ [s] ++ d :: after) d.startValue =
                (before ++ [s]).length := find_append hgood'.lt_of_mem.1 (by simp)
            simp only [← hunion]
            split_ifs with hle
            · refine ih hgood' hsource' ⟨rfl, hbefore', rfl, by simp, ?_⟩
                (by simp at hfuel ⊢; omega)
              simp only [BePlusTree.locate, hlocate, implies_true]
            · refine ih hgood' hsource' ⟨rfl, hbefore', rfl, by simp, ?_⟩
                (by simp at hfuel ⊢; omega)
              intro e he t ht hle'
              obtain rfl : d = e := by simpa using he
              obtain rfl : next = t := by simpa using ht
              exact absurd hle' hle

theorem Bucket.has_and_bits (hstart : b.startValue = s.startValue) :
    (Bucket.and s.bits b).Has v ↔ b.Has v ∧ s.Has v := by
  simp only [Bucket.Has, Bucket.and, BitVec.getLsbD_and, Bool.and_eq_true, hstart]
  tauto

theorem removeAll_spec (hlen : after.length < fuel) :
    removeAll fuel ⟨before ++ d :: after, before.length⟩ = some ⟨before, before.length⟩ := by
  induction fuel generalizing d after with
  | zero => simp at hlen
  | succ fuel ih =>
    rw [removeAll, fastRemove_append]
    cases after with
    | nil => simp
    | cons e after => exact ih (by simpa using hlen)

theorem not_holds_of_lt {value : Nat} (hstart : value = aligned n v)
    (h : ∀ b ∈ items, value < b.startValue) : ¬Holds items v :=
  not_holds_of_ne fun b hb => by have := h b hb; omega

theorem andLoop_spec (hgood : Good (before ++ after)) (hsource : Good source)
    {pos : Nat} (hpos : ∀ d ∈ after.head?, pos = before.length)
    (hvalue : ∀ d ∈ after.head?, destValue = d.startValue)
    (hfuel : after.length + source.length ≤ fuel) :
    ∃ tree, andLoop fuel source ⟨before ++ after, pos⟩ (!after.isEmpty) destValue = some tree ∧
      Good tree.items ∧
      ∀ v, Holds tree.items v ↔ Holds before v ∨ Holds after v ∧ Holds source v := by
  induction fuel generalizing source before after pos destValue with
  | zero =>
    obtain rfl : after = [] := eq_nil_of_length_eq_zero (by omega)
    exact ⟨_, rfl, hgood, by simp⟩
  | succ fuel ih =>
    cases after with
    | nil => exact ⟨_, rfl, hgood, by simp⟩
    | cons d after =>
      obtain rfl : pos = before.length := hpos d rfl
      obtain rfl : destValue = d.startValue := hvalue d rfl
      have hd := hgood.lt_of_mem
      cases source with
      | nil =>
        refine ⟨⟨before, before.length⟩, ?_, hgood.sublist (sublist_append_left _ _), by simp⟩
        exact removeAll_spec (by simp only [length_append, length_cons]; omega)
      | cons s source =>
        have hs : ∀ e ∈ source, s.startValue < e.startValue :=
          (pairwise_cons.1 hsource.sorted).1
        have hsource' : Good source := hsource.sublist (sublist_cons_self _ _)
        have hcur : (⟨before ++ d :: after, before.length⟩ : BePlusTree (Bucket n)).current =
            some d := by
          simp [BePlusTree.current]
        rw [length_cons, length_cons] at hfuel
        simp only [andLoop, hcur, Option.map_some, Option.getD_some, BePlusTree.modify,
          modify_append]
        by_cases hlt : s.startValue < d.startValue
        · -- The bucket of the source has no counterpart.
          rw [if_pos hlt]
          obtain ⟨tree, htree, hgood', hmem⟩ := ih hgood hsource' hpos hvalue
            (by rw [length_cons]; omega)
          refine ⟨tree, htree, hgood', fun v => ?_⟩
          have hnone : s.Has v → ¬Holds (d :: after) v := by
            intro hv
            refine not_holds_of_lt hv.1 fun c hc => ?_
            rcases mem_cons.1 hc with rfl | hc
            · exact hlt
            · exact Nat.lt_trans hlt (hd.2 c hc)
          rw [hmem, holds_cons (b := s)]
          grind
        rw [if_neg hlt]
        have hnone : ∀ v, d.Has v → ¬Holds source v := by
          intro v hv
          refine not_holds_of_lt hv.1 fun e he => ?_
          have := hs e he
          omega
        by_cases heq : s.startValue = d.startValue
        · rw [if_pos heq]
          have hnone' : ∀ v, s.Has v → ¬Holds after v := by
            intro v hv
            refine not_holds_of_lt hv.1 fun c hc => ?_
            have := hd.2 c hc
            omega
          have hboth : ∀ v, Holds (d :: after) v ∧ Holds (s :: source) v ↔
              (Bucket.and s.bits d).Has v ∨ Holds after v ∧ Holds source v := by
            intro v
            rw [Bucket.has_and_bits heq.symm, holds_cons, holds_cons]
            grind
          by_cases hzero : d.bits &&& s.bits = 0
          · -- Nothing is left of the bucket.
            have hgone : ∀ v, ¬(Bucket.and s.bits d).Has v := fun v => not_has_of_bits hzero
            have hif : ¬(d.bits &&& s.bits ≠ 0) := not_not.2 hzero
            simp only [if_neg hif, fastRemove_append]
            obtain ⟨tree, htree, hgood', hmem⟩ := ih hgood.remove hsource' (fun _ _ => rfl)
              (valueOf_append (fun _ _ => rfl) d.startValue) (by omega)
            refine ⟨tree, htree, hgood', fun v => ?_⟩
            rw [hmem, hboth]
            simp [hgone]
          · have hgood' : Good (before ++ Bucket.and s.bits d :: after) := hgood.replace rfl hzero
            have happ : before ++ Bucket.and s.bits d :: after =
                before ++ [Bucket.and s.bits d] ++ after := by simp
            simp only [if_pos (show d.bits &&& s.bits ≠ 0 from hzero), getNext_append]
            rw [happ] at hgood' ⊢
            have hpos' : ∀ c ∈ after.head?, (if after.isEmpty then before.length
                else before.length + 1) = (before ++ [Bucket.and s.bits d]).length := by
              cases after <;> simp
            obtain ⟨tree, htree, hgood'', hmem⟩ := ih hgood' hsource' hpos'
              (valueOf_append hpos' d.startValue) (by omega)
            refine ⟨tree, htree, hgood'', fun v => ?_⟩
            rw [hmem, hboth, holds_append, holds_cons]
            simp [or_assoc]
        · -- The bucket of the destination has no counterpart.
          rw [if_neg heq]
          simp only [fastRemove_append]
          obtain ⟨tree, htree, hgood', hmem⟩ := ih hgood.remove hsource (fun _ _ => rfl)
            (valueOf_append (fun _ _ => rfl) d.startValue) (by rw [length_cons]; omega)
          refine ⟨tree, htree, hgood', fun v => ?_⟩
          have hnone' : d.Has v → ¬Holds (s :: source) v := by
            intro hv
            refine not_holds_of_lt hv.1 fun e he => ?_
            rcases mem_cons.1 he with rfl | he
            · omega
            · have := hs e he
              omega
          rw [hmem, holds_cons (b := d)]
          grind

variable {t₁ t₂ : BePlusTree (Bucket n)} {shape₁ shape₂ : Shape}

/-- The shape that a tree with these buckets can have. -/
structure Shaped (shape : Shape) (items : List (Bucket n)) : Prop where
  leaf : shape.level = 0 → shape.root.getD 0 = items.length
  node : 0 < shape.level → items ≠ []

theorem Shaped.nil_of_nil (h₁ : Shaped shape₁ t₁.items) (h₂ : Shaped shape₂ t₂.items)
    (hbig : shape₁.seemsBiggerThan shape₂ ∨ ¬shape₂.seemsBiggerThan shape₁)
    (hnil : t₁.items = []) : t₂.items = [] := by
  have hlevel₁ : shape₁.level = 0 := by
    by_contra h
    exact h₁.node (Nat.pos_of_ne_zero h) hnil
  have hlevel₂ : shape₂.level = 0 := by
    by_contra h
    simp [Shape.seemsBiggerThan, hlevel₁, h, Ne.symm h, Nat.pos_of_ne_zero h] at hbig
  have hroot₁ := h₁.leaf hlevel₁
  have hroot₂ := h₂.leaf hlevel₂
  rw [hnil, length_nil] at hroot₁
  apply eq_nil_of_length_eq_zero
  simp only [Shape.seemsBiggerThan, hlevel₁, hlevel₂, ne_eq, not_true, if_false] at hbig
  cases hr₁ : shape₁.root <;> cases hr₂ : shape₂.root <;>
    simp only [hr₁, hr₂, Option.getD_none, Option.getD_some,
      decide_eq_true_eq] at hbig hroot₁ hroot₂
  all_goals first | omega | simp at hbig

theorem orTree_spec (h₁ : Good t₁.items) (h₂ : Good t₂.items)
    (hnil : t₁.items = [] → t₂.items = []) :
    ∃ tree, orTree t₁ t₂ = some tree ∧ Good tree.items ∧
      ∀ v, Holds tree.items v ↔ Holds t₁.items v ∨ Holds t₂.items v := by
  obtain ⟨items₁, pos₁⟩ := t₁
  obtain ⟨items₂, pos₂⟩ := t₂
  cases items₂ with
  | nil => exact ⟨⟨items₁, pos₁⟩, rfl, h₁, by simp⟩
  | cons s source =>
    cases items₁ with
    | nil => exact absurd (hnil rfl) (by simp)
    | cons d after =>
      have hat : OrAt (s :: source) ⟨d :: after, 0⟩ true (valueOf ⟨d :: after, 0⟩ 0) []
        (d :: after) :=
        ⟨rfl, by simp, rfl, by simp [valueOf, BePlusTree.current], by simp⟩
      exact orLoop_spec h₁ h₂ hat (Nat.le_refl _)

theorem andTree_spec (h₁ : Good t₁.items) (h₂ : Good t₂.items)
    (hnil : t₂.items = [] → t₁.items = []) :
    ∃ tree, andTree t₁ t₂ = some tree ∧ Good tree.items ∧
      ∀ v, Holds tree.items v ↔ Holds t₁.items v ∧ Holds t₂.items v := by
  obtain ⟨items₁, pos₁⟩ := t₁
  obtain ⟨items₂, pos₂⟩ := t₂
  cases items₁ with
  | nil => exact ⟨⟨[], 0⟩, rfl, good_nil, by simp⟩
  | cons d after =>
    cases items₂ with
    | nil => exact absurd (hnil rfl) (by simp)
    | cons s source =>
      obtain ⟨tree, htree, hgood, hmem⟩ := @andLoop_spec n [] (d :: after) (s :: source)
        (valueOf ⟨d :: after, 0⟩ 0) ((d :: after).length + (s :: source).length) h₁ h₂ 0
        (by simp) (by simp [valueOf, BePlusTree.current]) (Nat.le_refl _)
      exact ⟨tree, htree, hgood, by simpa using hmem⟩

variable {map₁ map₂ : SparseBitmap n}

theorem wf_withTree (hs : ¬map₁.singular) {tree : BePlusTree (Bucket n)} (hgood : Good tree.items) :
    Wf { map₁ with tree := tree } ∧
      ∀ v, Mem { map₁ with tree := tree } v ↔ Holds tree.items v :=
  ⟨⟨hgood, fun hs' => absurd hs' hs⟩, fun v => by simp [Mem, hs]⟩

theorem mem_of_not_singular (hs : ¬map₁.singular) : map₁.Mem v ↔ Holds map₁.tree.items v := by
  rw [Mem, if_neg hs]

theorem bitOr_spec (hn : n = 2 ^ k) (h₁ : Wf map₁) (h₂ : Wf map₂)
    (hs₁ : Shaped shape₁ map₁.tree.items) (hs₂ : Shaped shape₂ map₂.tree.items) :
    ∃ map, bitOr (some map₁) (some map₂) shape₁ shape₂ = some (some map) ∧ Wf map ∧
      ∀ v, map.Mem v ↔ map₁.Mem v ∨ map₂.Mem v := by
  rw [bitOr]
  split_ifs with hsing₁ hsing₂ hbig
  · obtain ⟨hwf, hmem⟩ := set_spec hn h₂ map₁.singularValue
    refine ⟨_, rfl, hwf, fun v => ?_⟩
    rw [hmem, or_comm, eq_comm, Mem, Mem, if_pos hsing₁]
  · obtain ⟨hwf, hmem⟩ := set_spec hn h₁ map₂.singularValue
    refine ⟨_, rfl, hwf, fun v => ?_⟩
    rw [hmem, eq_comm (b := v)]
    simp [Mem, hsing₂]
  · obtain ⟨tree, htree, hgood, hmem⟩ := orTree_spec h₂.good h₁.good
      (hs₂.nil_of_nil hs₁ (.inl hbig))
    obtain ⟨hwf, hmem'⟩ := wf_withTree hsing₂ hgood
    refine ⟨_, by rw [htree]; rfl, hwf, fun v => ?_⟩
    rw [hmem', hmem, mem_of_not_singular hsing₁, mem_of_not_singular hsing₂, or_comm]
  · obtain ⟨tree, htree, hgood, hmem⟩ :=
      orTree_spec h₁.good h₂.good (hs₁.nil_of_nil hs₂ (.inr hbig))
    obtain ⟨hwf, hmem'⟩ := wf_withTree hsing₁ hgood
    refine ⟨_, by rw [htree]; rfl, hwf, fun v => ?_⟩
    rw [hmem', hmem, mem_of_not_singular hsing₁, mem_of_not_singular hsing₂]

/-- The values of the bitmap that a call returns; NULL has none. -/
def Denotes (map : Option (SparseBitmap n)) (value : Nat) : Prop := ∃ b, map = some b ∧ b.Mem value

theorem singular_and (hn : n = 2 ^ k) (h₁ : Wf map₁) (h₂ : Wf map₂) (hsing : map₁.singular) :
    (∀ b, (if (map₂.test map₁.singularValue).1 then some map₁ else none) = some b → Wf b) ∧
      ∀ v, Denotes (if (map₂.test map₁.singularValue).1 then some map₁ else none) v ↔
        map₁.Mem v ∧ map₂.Mem v := by
  have htest := (test_spec hn h₂ map₁.singularValue).1
  have hmem : ∀ v, map₁.Mem v ↔ v = map₁.singularValue := fun v => by rw [Mem, if_pos hsing]
  split_ifs with hin
  · refine ⟨fun b hb => Option.some.inj hb ▸ h₁, fun v => ?_⟩
    simp only [Denotes, Option.some.injEq, exists_eq_left', hmem]
    exact ⟨fun hv => ⟨hv, hv ▸ htest.1 hin⟩, And.left⟩
  · refine ⟨fun b hb => absurd hb (by simp), fun v => ?_⟩
    simp only [Denotes, reduceCtorEq, false_and, exists_false, hmem, false_iff]
    rintro ⟨rfl, hv⟩
    exact hin (htest.2 hv)

theorem bitAnd_spec (hn : n = 2 ^ k) (h₁ : Wf map₁) (h₂ : Wf map₂)
    (hs₁ : Shaped shape₁ map₁.tree.items) (hs₂ : Shaped shape₂ map₂.tree.items) :
    ∃ map, bitAnd (some map₁) (some map₂) shape₁ shape₂ = some map ∧ (∀ b, map = some b → Wf b) ∧
      ∀ v, Denotes map v ↔ map₁.Mem v ∧ map₂.Mem v := by
  rw [bitAnd]
  by_cases hsing₁ : map₁.singular
  · rw [if_pos hsing₁]
    exact ⟨_, rfl, singular_and hn h₁ h₂ hsing₁⟩
  rw [if_neg hsing₁]
  by_cases hsing₂ : map₂.singular
  · obtain ⟨hwf, hmem⟩ := singular_and hn h₂ h₁ hsing₂
    rw [if_pos hsing₂]
    exact ⟨_, rfl, hwf, fun v => (hmem v).trans and_comm⟩
  rw [if_neg hsing₂]
  split_ifs with hbig
  · obtain ⟨tree, htree, hgood, hmem⟩ := andTree_spec h₂.good h₁.good
      (hs₁.nil_of_nil hs₂ (.inl hbig))
    obtain ⟨hwf, hmem'⟩ := wf_withTree hsing₂ hgood
    refine ⟨_, by rw [htree]; rfl, fun b hb => Option.some.inj hb ▸ hwf, fun v => ?_⟩
    simp only [Denotes, Option.some.injEq, exists_eq_left', hmem', hmem,
      mem_of_not_singular hsing₁, mem_of_not_singular hsing₂]
    exact and_comm
  · obtain ⟨tree, htree, hgood, hmem⟩ :=
      andTree_spec h₁.good h₂.good (hs₂.nil_of_nil hs₁ (.inr hbig))
    obtain ⟨hwf, hmem'⟩ := wf_withTree hsing₁ hgood
    refine ⟨_, by rw [htree]; rfl, fun b hb => Option.some.inj hb ▸ hwf, fun v => ?_⟩
    simp [Denotes, hmem', hmem, mem_of_not_singular hsing₁, mem_of_not_singular hsing₂]

/-- The bitmaps that calls can lead to, with the set that they are meant for. The accessor of the
tree may be moved at any time. -/
inductive Reach (n : Nat) : SparseBitmap n → Set Nat → Prop
  | new : Reach n (new n) ∅
  | move {b : SparseBitmap n} {S : Set Nat} (pos : Nat) : Reach n b S →
      Reach n { b with tree := { b.tree with curPos := pos } } S
  | set {b : SparseBitmap n} {S : Set Nat} (value : Nat) : Reach n b S →
      Reach n (b.set value) (insert value S)
  | clear {b : SparseBitmap n} {S : Set Nat} (value : Nat) : Reach n b S →
      Reach n (b.clear value).2 (S \ {value})
  | clearAll {b : SparseBitmap n} {S : Set Nat} : Reach n b S → Reach n b.clearAll ∅
  | test {b : SparseBitmap n} {S : Set Nat} (value : Nat) : Reach n b S → Reach n (b.test value).2 S
  | bitOr {b₁ b₂ b : SparseBitmap n} {S₁ S₂ : Set Nat} {shape₁ shape₂ : Shape} : Reach n b₁ S₁ →
      Reach n b₂ S₂ → Shaped shape₁ b₁.tree.items → Shaped shape₂ b₂.tree.items →
      bitOr (some b₁) (some b₂) shape₁ shape₂ = some (some b) → Reach n b (S₁ ∪ S₂)
  | bitAnd {b₁ b₂ b : SparseBitmap n} {S₁ S₂ : Set Nat} {shape₁ shape₂ : Shape} : Reach n b₁ S₁ →
      Reach n b₂ S₂ → Shaped shape₁ b₁.tree.items → Shaped shape₂ b₂.tree.items →
      bitAnd (some b₁) (some b₂) shape₁ shape₂ = some (some b) → Reach n b (S₁ ∩ S₂)

variable {S S₁ S₂ : Set Nat}

theorem Reach.spec (hn : n = 2 ^ k) {b : SparseBitmap n} (h : Reach n b S) :
    Wf b ∧ ∀ v, b.Mem v ↔ v ∈ S := by
  induction h with
  | new => exact ⟨⟨good_nil, fun _ => rfl⟩, by simp [Mem, SparseBitmap.new]⟩
  | move pos _ ih => exact ⟨⟨ih.1.good, ih.1.singular⟩, ih.2⟩
  | set value _ ih =>
    obtain ⟨hwf, hmem⟩ := set_spec hn ih.1 value
    refine ⟨hwf, fun v => ?_⟩
    rw [hmem, ih.2, Set.mem_insert_iff, or_comm, eq_comm]
  | clear value _ ih =>
    obtain ⟨-, hwf, hmem⟩ := clear_spec hn ih.1 value
    refine ⟨hwf, fun v => ?_⟩
    rw [hmem, ih.2, Set.mem_sdiff, Set.mem_singleton_iff, ne_eq, eq_comm]
  | clearAll _ ih => exact ⟨⟨good_nil, fun _ => rfl⟩, by simp [Mem, SparseBitmap.clearAll]⟩
  | test value _ ih =>
    obtain ⟨-, hsing, hvalue, hitems⟩ := test_spec hn ih.1 value
    refine ⟨⟨hitems ▸ ih.1.good, fun h => hitems ▸ ih.1.singular (hsing ▸ h)⟩, fun v => ?_⟩
    rw [← ih.2, Mem, Mem, hsing, hvalue, hitems]
  | bitOr _ _ hs₁ hs₂ hor ih₁ ih₂ =>
    obtain ⟨map, hmap, hwf, hmem⟩ := bitOr_spec hn ih₁.1 ih₂.1 hs₁ hs₂
    rw [hor] at hmap
    cases hmap
    exact ⟨hwf, fun v => by rw [hmem, ih₁.2, ih₂.2, Set.mem_union]⟩
  | bitAnd _ _ hs₁ hs₂ hand ih₁ ih₂ =>
    obtain ⟨map, hmap, hwf, hmem⟩ := bitAnd_spec hn ih₁.1 ih₂.1 hs₁ hs₂
    rw [hand] at hmap
    cases hmap
    refine ⟨hwf _ rfl, fun v => ?_⟩
    rw [Set.mem_inter_iff, ← ih₁.2, ← ih₂.2, ← hmem]
    simp [Denotes]

def Operand (map : Option (SparseBitmap n)) (shape : Shape) (S : Set Nat) : Prop :=
  match map with
  | none => S = ∅
  | some b => Reach n b S ∧ Shaped shape b.tree.items

theorem denotes_some {b : SparseBitmap n} : Denotes (some b) v ↔ b.Mem v := by
  simp [Denotes]

/-- A sparse bitmap is the set of the values that were set and not cleared since, its buckets are in
order, aligned and not empty, and none is left while it is singular; `bit_or` and `bit_and` return
the union and the intersection. -/
theorem bitmap_is_set (hn : n = 2 ^ k) :
    (∀ (b : SparseBitmap n) (S : Set Nat), Reach n b S →
      Wf b ∧ (∀ v, (b.test v).1 ↔ v ∈ S) ∧ ∀ v, (b.clear v).1 ↔ v ∈ S) ∧
    ∀ (map₁ map₂ : Option (SparseBitmap n)) (shape₁ shape₂ : Shape) (S₁ S₂ : Set Nat),
      Operand map₁ shape₁ S₁ → Operand map₂ shape₂ S₂ →
      (∃ map, bitOr map₁ map₂ shape₁ shape₂ = some map ∧ ∀ v, Denotes map v ↔ v ∈ S₁ ∪ S₂) ∧
      ∃ map, bitAnd map₁ map₂ shape₁ shape₂ = some map ∧ ∀ v, Denotes map v ↔ v ∈ S₁ ∩ S₂ := by
  have hdenotes : ∀ (map : Option (SparseBitmap n)) (shape : Shape) (S : Set Nat),
      Operand map shape S → ∀ v, Denotes map v ↔ v ∈ S := by
    intro map shape S h v
    cases map with
    | none =>
      obtain rfl : S = ∅ := h
      simp [Denotes]
    | some b => rw [denotes_some, (h.1.spec hn).2]
  refine ⟨fun b S h => ?_, fun map₁ map₂ shape₁ shape₂ S₁ S₂ h₁ h₂ => ?_⟩
  · obtain ⟨hwf, hmem⟩ := h.spec hn
    refine ⟨hwf, fun v => ?_, fun v => ?_⟩
    · rw [(test_spec hn hwf v).1, hmem]
    · rw [(clear_spec hn hwf v).1, hmem]
  · simp only [Set.mem_union, Set.mem_inter_iff, ← hdenotes map₁ shape₁ S₁ h₁,
      ← hdenotes map₂ shape₂ S₂ h₂]
    cases map₁ with
    | none => exact ⟨⟨map₂, rfl, by simp [Denotes]⟩, none, rfl, by simp [Denotes]⟩
    | some b₁ =>
      cases map₂ with
      | none => exact ⟨⟨some b₁, rfl, by simp [Denotes]⟩, none, rfl, by simp [Denotes]⟩
      | some b₂ =>
        obtain ⟨hwf₁, -⟩ := h₁.1.spec hn
        obtain ⟨hwf₂, -⟩ := h₂.1.spec hn
        simp only [denotes_some]
        constructor
        · obtain ⟨map, hmap, -, hmem⟩ := bitOr_spec hn hwf₁ hwf₂ h₁.2 h₂.2
          exact ⟨some map, hmap, fun v => by rw [denotes_some, hmem]⟩
        · obtain ⟨map, hmap, -, hmem⟩ := bitAnd_spec hn hwf₁ hwf₂ h₁.2 h₂.2
          exact ⟨map, hmap, hmem⟩

/-- Two trees of two buckets each, one bucket of them in common. -/
theorem bitmap_is_set_64 :
    ∃ a b c : SparseBitmap 64, Reach 64 a {200, 70} ∧ Reach 64 b {130, 200} ∧
      (a.test 70).1 ∧ ¬(a.test 65).1 ∧ (b.clear 130).1 ∧
      bitOr (some a) (some b) ⟨0, some 2⟩ ⟨0, some 2⟩ = some (some c) ∧ (c.clear 130).1 ∧
      ∃ map, bitAnd (some a) (some b) ⟨0, some 2⟩ ⟨0, some 2⟩ = some map ∧
        Denotes map 200 ∧ ¬Denotes map 70 := by
  obtain ⟨his, hmerge⟩ := bitmap_is_set (show 64 = 2 ^ 6 by decide)
  obtain ⟨a, ha, hlena⟩ : ∃ a, Reach 64 a {200, 70} ∧ a.tree.items.length = 2 := by
    have h : Reach 64 (((new 64).set 70).set 65) {65, 70} := by
      simpa using Reach.set 65 (Reach.set 70 Reach.new)
    have hclear : ({65, 70} : Set Nat) \ {65} = {70} := by
      ext v
      simp only [Set.mem_sdiff, Set.mem_insert_iff, Set.mem_singleton_iff]
      omega
    exact ⟨_, Reach.set 200 (hclear ▸ Reach.clear 65 h), by decide +kernel⟩
  obtain ⟨b, hb, hlenb⟩ : ∃ b, Reach 64 b {130, 200} ∧ b.tree.items.length = 2 :=
    ⟨_, by simpa using Reach.set 130 (Reach.set 200 Reach.new), by decide +kernel⟩
  have hopa : Operand (some a) ⟨0, some 2⟩ {200, 70} :=
    ⟨ha, fun _ => hlena.symm, fun h => absurd h (lt_irrefl 0)⟩
  have hopb : Operand (some b) ⟨0, some 2⟩ {130, 200} :=
    ⟨hb, fun _ => hlenb.symm, fun h => absurd h (lt_irrefl 0)⟩
  obtain ⟨⟨map, hor, hunion⟩, hand⟩ := hmerge _ _ _ _ _ _ hopa hopb
  obtain ⟨c, rfl, -⟩ := (hunion 70).2 (by simp)
  have hc := Reach.bitOr ha hb hopa.2 hopb.2 hor
  obtain ⟨map, hand, hinter⟩ := hand
  refine ⟨a, b, c, ha, hb, ?_, ?_, ?_, hor, ?_, map, hand, ?_, ?_⟩
  · simp [(his a _ ha).2.1]
  · simp [(his a _ ha).2.1]
  · simp [(his b _ hb).2.2]
  · simp [(his c _ hc).2.2]
  · simp [hinter]
  · simp [hinter]

end Firebird.Common.SparseBitmap
