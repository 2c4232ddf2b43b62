import Firebird.Jrd.TempSpace

/-!
# The segments of temporary space

The free segments and those that the callers hold tile the space: `allocateSpace` and
`allocateBatch` take space from a free segment or from the end, and `releaseSpace` joins what it
gets back with the free segments at its sides.
-/
namespace Firebird.Jrd.Temp

open Common

variable {minBlockSize alignment : Nat}

/-! ## Tiles -/

def Segment.Contains (seg : Segment) (x : Nat) : Prop :=
  seg.position ≤ x ∧ x < seg.position + seg.size

instance (seg : Segment) (x : Nat) : Decidable (seg.Contains x) :=
  inferInstanceAs (Decidable (_ ∧ _))

def cover (segs : List Segment) (x : Nat) : Nat :=
  segs.countP fun seg => seg.Contains x

@[simp]
theorem cover_nil (x : Nat) : cover [] x = 0 := rfl

@[simp]
theorem cover_cons (seg : Segment) (segs : List Segment) (x : Nat) :
    cover (seg :: segs) x = cover segs x + if seg.Contains x then 1 else 0 := by
  simp [cover, List.countP_cons]

@[simp]
theorem cover_append (as bs : List Segment) (x : Nat) :
    cover (as ++ bs) x = cover as x + cover bs x := by
  simp [cover]

theorem Segment.contains_iff (seg : Segment) (x : Nat) :
    seg.Contains x ↔ seg.position ≤ x ∧ x < seg.position + seg.size := Iff.rfl

theorem cover_pos {segs : List Segment} {seg : Segment} (h : seg ∈ segs) {x : Nat}
    (hx : seg.Contains x) : 0 < cover segs x :=
  List.countP_pos_iff.mpr ⟨seg, h, by simpa using hx⟩

/-- One free segment in front of another, with something between them. -/
def Apart (a b : Segment) : Prop := a.position + a.size < b.position

structure Sorted (free : List Segment) : Prop where
  nonempty : ∀ seg ∈ free, 0 < seg.size
  apart : free.Pairwise Apart

/-- Every byte of the space is in exactly one free or used segment, and no other byte is. -/
def Tiles (free used : List Segment) (logicalSize : Nat) : Prop :=
  ∀ x, cover free x + cover used x = if x < logicalSize then 1 else 0

variable {before after free used : List Segment} {seg : Segment} {logicalSize : Nat}

namespace Sorted

theorem before_lt (h : Sorted (before ++ seg :: after)) :
    ∀ x ∈ before, x.position + x.size < seg.position := by
  intro x hx
  exact (List.pairwise_append.mp h.apart).2.2 x hx seg List.mem_cons_self

theorem after_gt (h : Sorted (before ++ seg :: after)) :
    ∀ x ∈ after, seg.position + seg.size < x.position := by
  intro x hx
  exact (List.pairwise_cons.mp (List.pairwise_append.mp h.apart).2.1).1 x hx

theorem replace (h : Sorted (before ++ seg :: after)) {segs : List Segment} (hs : Sorted segs)
    (hin : ∀ x ∈ segs, seg.position ≤ x.position ∧
      x.position + x.size ≤ seg.position + seg.size) : Sorted (before ++ segs ++ after) := by
  constructor
  · intro x hx
    rcases List.mem_append.mp hx with hx | hx
    · rcases List.mem_append.mp hx with hx | hx
      · exact h.nonempty x (by simp [hx])
      · exact hs.nonempty x hx
    · exact h.nonempty x (by simp [hx])
  · obtain ⟨hb, hc, -⟩ := List.pairwise_append.mp h.apart
    refine List.pairwise_append.mpr ⟨List.pairwise_append.mpr ⟨hb, hs.apart, ?_⟩,
      (List.pairwise_cons.mp hc).2, ?_⟩
    · intro a ha b hb
      have := h.before_lt a ha
      have := (hin b hb).1
      rw [Apart]
      omega
    · intro a ha b hb
      have hab := h.after_gt b hb
      rcases List.mem_append.mp ha with ha | ha
      · have := h.before_lt a ha
        rw [Apart]
        omega
      · have := (hin a ha).2
        rw [Apart]
        omega

theorem singleton (h : 0 < seg.size) : Sorted [seg] :=
  ⟨by simpa using h, List.pairwise_singleton _ _⟩

theorem nil : Sorted [] := ⟨by simp, List.Pairwise.nil⟩

theorem remove (h : Sorted (before ++ seg :: after)) : Sorted (before ++ after) := by
  have hnew : Sorted (before ++ [] ++ after) := h.replace nil (by simp)
  rwa [List.append_nil] at hnew

theorem insert (h : Sorted (before ++ after)) (hpos : 0 < seg.size)
    (hbefore : ∀ x ∈ before, x.position + x.size < seg.position)
    (hafter : ∀ x ∈ after, seg.position + seg.size < x.position) :
    Sorted (before ++ seg :: after) := by
  obtain ⟨hb, ha, hba⟩ := List.pairwise_append.mp h.apart
  constructor
  · intro x hx
    rcases List.mem_append.mp hx with hx | hx
    · exact h.nonempty x (by simp [hx])
    · rcases List.mem_cons.mp hx with rfl | hx
      · exact hpos
      · exact h.nonempty x (by simp [hx])
  · refine List.pairwise_append.mpr ⟨hb, List.pairwise_cons.mpr ⟨hafter, ha⟩, ?_⟩
    intro x hx y hy
    rcases List.mem_cons.mp hy with rfl | hy
    · exact hbefore x hx
    · exact hba x hx y hy

end Sorted

theorem findBest_spec {size : Nat} {items : List Segment} {i : Nat}
    {best : Option (Nat × Segment)} (hfree : ∀ l seg, items[l]? = some seg → free[i + l]? = some
      seg)
    (hbest : ∀ b ∈ best, free[b.1]? = some b.2 ∧ size ≤ b.2.size) :
    ∀ b ∈ findBest size items i best, free[b.1]? = some b.2 ∧ size ≤ b.2.size := by
  induction items generalizing i best with
  | nil => exact hbest
  | cons space items ih =>
    have hrest : ∀ l seg, items[l]? = some seg → free[i + 1 + l]? = some seg := by
      intro l seg hl
      have := hfree (l + 1) seg (by simpa using hl)
      rwa [show i + (l + 1) = i + 1 + l by omega] at this
    rw [findBest]
    split
    · next hsize =>
      refine ih hrest fun b hb => ?_
      obtain rfl : (i, space) = b := by simpa using hb
      exact ⟨hfree 0 space rfl, hsize.1⟩
    · exact ih hrest hbest

theorem exists_append {i : Nat} (h : free[i]? = some seg) :
    ∃ before after, free = before ++ seg :: after ∧ i = before.length := by
  obtain ⟨hlt, hget⟩ := List.getElem?_eq_some_iff.mp h
  refine ⟨free.take i, free.drop (i + 1), ?_, by rw [List.length_take]; omega⟩
  rw [← hget, ← List.drop_eq_getElem_cons hlt, List.take_append_drop]

theorem Tiles.take (h : Tiles (before ++ seg :: after) used logicalSize) (segs : List Segment)
    {taken : Segment} (hc : ∀ x, cover segs x + (if taken.Contains x then 1 else 0) =
      if seg.Contains x then 1 else 0) :
    Tiles (before ++ segs ++ after) (used ++ [taken]) logicalSize := by
  intro x
  have := h x
  have := hc x
  simp only [cover_append, cover_cons, cover_nil] at *
  omega

theorem appendBlock_logicalSize (s : TempSpace) (p : Placement) (size : Nat)
    (initial : List UInt8) : (appendBlock s p size initial).logicalSize = s.logicalSize := by
  cases p with
  | memory fresh => rfl
  | file index =>
    simp only [appendBlock]
    split <;> rfl

theorem appendBlock_freeSegments (s : TempSpace) (p : Placement) (size : Nat)
    (initial : List UInt8) : (appendBlock s p size initial).freeSegments = s.freeSegments := by
  cases p with
  | memory fresh => rfl
  | file index =>
    simp only [appendBlock]
    split <;> rfl

theorem extend_logicalSize (s : TempSpace) (p : Placement) (size : Nat) :
    (extend minBlockSize s p size).logicalSize = s.logicalSize + size := by
  simp only [extend]
  split
  · split
    · rfl
    · split <;> exact appendBlock_logicalSize ..
  · rfl

theorem extend_freeSegments (s : TempSpace) (p : Placement) (size : Nat) :
    (extend minBlockSize s p size).freeSegments = s.freeSegments := by
  simp only [extend]
  split
  · split
    · rfl
    · split <;> exact appendBlock_freeSegments ..
  · rfl

theorem Tiles.extend (h : Tiles free used logicalSize) (size : Nat) :
    Tiles free (used ++ [⟨logicalSize, size⟩]) (logicalSize + size) := by
  intro x
  have := h x
  simp only [cover_append, cover_cons, cover_nil, Segment.contains_iff] at *
  split at this <;> split <;> split <;> omega

variable {s : TempSpace}

theorem allocateSpace_spec (hs : Sorted s.freeSegments.items)
    (ht : Tiles s.freeSegments.items used s.logicalSize) (p : Placement) (size : Nat) :
    Sorted (allocateSpace minBlockSize s p size).2.freeSegments.items ∧
      Tiles (allocateSpace minBlockSize s p size).2.freeSegments.items
        (used ++ [⟨(allocateSpace minBlockSize s p size).1, size⟩])
        (allocateSpace minBlockSize s p size).2.logicalSize := by
  rw [allocateSpace]
  cases hb : findBest size s.freeSegments.items 0 none with
  | none =>
    simp only [extend_logicalSize, extend_freeSegments, Nat.add_sub_cancel]
    exact ⟨hs, ht.extend size⟩
  | some best =>
    obtain ⟨i, best⟩ := best
    have hspec := @findBest_spec s.freeSegments.items size s.freeSegments.items 0 none (by simp)
      (by simp)
    obtain ⟨hi, hsize⟩ := hspec _ (Option.mem_def.mpr hb)
    obtain ⟨before, after, hfree, rfl⟩ := exists_append hi
    change size ≤ best.size at hsize
    change s.freeSegments.items = before ++ best :: after at hfree
    rw [hfree] at hs ht
    simp only [BePlusTree.modify, hfree, modify_append]
    split
    · next hzero =>
      -- An exact fit: the segment is found at its end, as no other one begins there.
      have hfind : find Segment.position (before ++ ⟨best.position + size, best.size - size⟩ ::
        after)
          (best.position + size) = before.length :=
        find_append (fun x hx => by have := hs.before_lt x hx; omega) (by simp)
      simp only [BePlusTree.locate, hfind, BePlusTree.fastRemove, eraseIdx_append]
      have hnew : Sorted (before ++ [] ++ after) := hs.replace Sorted.nil (by simp)
      have htiles : Tiles (before ++ [] ++ after) (used ++ [⟨best.position, size⟩])
        s.logicalSize := by
        refine ht.take [] fun x => ?_
        simp only [cover_nil, Segment.contains_iff]
        split <;> split <;> omega
      rw [List.append_nil] at hnew htiles
      exact ⟨hnew, htiles⟩
    · next hrest =>
      have hnew : Sorted (before ++ [⟨best.position + size, best.size - size⟩] ++ after) :=
        hs.replace (Sorted.singleton (Nat.pos_of_ne_zero hrest)) (by simp; omega)
      have htiles : Tiles (before ++ [⟨best.position + size, best.size - size⟩] ++ after)
          (used ++ [⟨best.position, size⟩]) s.logicalSize := by
        refine ht.take _ fun x => ?_
        simp only [cover_cons, cover_nil, Segment.contains_iff]
        split <;> split <;> split <;> omega
      rw [List.append_assoc] at hnew htiles
      exact ⟨hnew, htiles⟩

variable {u₁ u₂ : List Segment} {position size : Nat}

theorem Tiles.disjoint (ht : Tiles free used logicalSize) (hseg : seg ∈ used) {x : Segment}
    (hx : x ∈ free) (hpos : 0 < x.size) (hsize : 0 < seg.size) :
    x.position + x.size ≤ seg.position ∨ seg.position + seg.size ≤ x.position := by
  by_contra hne
  have hfree : x.Contains (max x.position seg.position) := by
    rw [Segment.contains_iff]
    omega
  have hused : seg.Contains (max x.position seg.position) := by
    rw [Segment.contains_iff]
    omega
  have h₁ := cover_pos hx hfree
  have h₂ := cover_pos hseg hused
  have h₃ := ht (max x.position seg.position)
  split at h₃ <;> omega

theorem Tiles.release (ht : Tiles free (u₁ ++ seg :: u₂) logicalSize)
    (hpos : seg.position ≤ position) (hend : position + size = seg.position + seg.size)
    {free' : List Segment} (hc : ∀ x, cover free' x =
      cover free x + if (⟨position, size⟩ : Segment).Contains x then 1 else 0) :
    Tiles free' (u₁ ++ ⟨seg.position, position - seg.position⟩ :: u₂) logicalSize := by
  intro x
  have h₁ := ht x
  have h₂ := hc x
  have hsplit : (if seg.Contains x then 1 else 0) =
      (if (⟨seg.position, position - seg.position⟩ : Segment).Contains x then 1 else 0) +
        if (⟨position, size⟩ : Segment).Contains x then 1 else 0 := by
    simp only [Segment.contains_iff]
    split <;> split <;> split <;> omega
  simp only [cover_append, cover_cons] at h₁ ⊢
  omega

theorem releaseSpace_next {next : Segment}
    (hs : Sorted (before ++ next :: after))
    (hfree : s.freeSegments.items = before ++ next :: after)
    (hnext : next.position = position + size) :
    (∀ before' prior, before = before' ++ [prior] →
      (releaseSpace s position size).freeSegments.items =
        if position = prior.position + prior.size then
          before' ++ ⟨position - prior.size, next.size + size + prior.size⟩ :: after
        else before ++ ⟨position, next.size + size⟩ :: after) ∧
    (before = [] →
      (releaseSpace s position size).freeSegments.items = ⟨position, next.size + size⟩ ::
        after) := by
  have hfind : find Segment.position (before ++ next :: after) (position + size) = before.length :=
    find_append (fun x hx => by have := hs.before_lt x hx; omega) (by simp [hnext])
  have hget : (before ++ next :: after)[before.length]? = some next := by simp
  have hpos : position + size - size = position := by omega
  constructor
  · rintro before' prior rfl
    have hprior : (before' ++ [prior] ++ ⟨position, next.size + size⟩ :: after)[before'.length]? =
        some prior := by simp
    have hone : (before' ++ [prior]).length ≠ 0 := by simp
    have hlen : (before' ++ [prior]).length - 1 = before'.length := by simp
    simp only [releaseSpace, BePlusTree.locate, hfree, hfind, hget, Option.map_some, hnext,
      beq_self_eq_true, if_true, BePlusTree.modify, modify_append, hpos, BePlusTree.getPrev, hone,
      if_false, BePlusTree.current, hlen, hprior]
    split
    · simp [BePlusTree.fastRemove, eraseIdx_append]
    · rfl
  · rintro rfl
    simp only [List.nil_append] at hfree hfind hget
    simp [releaseSpace, BePlusTree.locate, hfree, hfind, hnext, BePlusTree.modify,
      BePlusTree.getPrev]

theorem releaseSpace_other (hfree : s.freeSegments.items = before ++ after)
    (hbefore : ∀ x ∈ before, x.position < position)
    (hafter : ∀ x ∈ after, position + size < x.position) :
    (∀ before' prior, before = before' ++ [prior] →
      (releaseSpace s position size).freeSegments.items =
        if position = prior.position + prior.size then
          before' ++ ⟨prior.position, prior.size + size⟩ :: after
        else before ++ ⟨position, size⟩ :: after) ∧
    (before = [] →
      (releaseSpace s position size).freeSegments.items = ⟨position, size⟩ :: after) := by
  have hfind : find Segment.position (before ++ after) position = before.length :=
    find_append hbefore fun x hx => by have := hafter x (List.mem_of_mem_head? hx); omega
  have hend : find Segment.position (before ++ after) (position + size) = before.length :=
    find_append (fun x hx => by have := hbefore x hx; omega)
      fun x hx => by have := hafter x (List.mem_of_mem_head? hx); omega
  have hnext : ((before ++ after)[before.length]?.map Segment.position ==
      some (position + size)) = false := by
    rw [List.getElem?_append_right (Nat.le_refl _), Nat.sub_self]
    cases after with
    | nil => rfl
    | cons x after =>
      have := hafter x List.mem_cons_self
      simp
      omega
  have hadd : ∀ pos, (BePlusTree.add Segment.position ⟨before ++ after, pos⟩
    ⟨position, size⟩).2.items =
      before ++ ⟨position, size⟩ :: after := by
    intro pos
    have hkey : ∀ x ∈ after.head?, Segment.position ⟨position, size⟩ < x.position := by
      intro x hx
      have := hafter x (List.mem_of_mem_head? hx)
      change position < x.position
      omega
    rw [add_append hbefore hkey]
  constructor
  · rintro before' prior rfl
    have hprior : (before' ++ [prior] ++ after)[before'.length]? = some prior := by simp
    have hone : (before' ++ [prior]).length ≠ 0 := by simp
    have hlen : (before' ++ [prior]).length - 1 = before'.length := by simp
    simp only [releaseSpace, BePlusTree.locate, hfree, hend, hnext, Bool.false_eq_true, if_false,
      hfind, hone, BePlusTree.current, hlen, hprior]
    split
    · simp [BePlusTree.modify, modify_append]
    · exact hadd _
  · rintro rfl
    simp only [List.nil_append, List.length_nil] at hfree hfind hend hnext hadd
    simp [releaseSpace, BePlusTree.locate, hfree, hend, hnext, hfind, hadd]

theorem releaseSpace_logicalSize (s : TempSpace) :
    (releaseSpace s position size).logicalSize = s.logicalSize := by
  simp only [releaseSpace]
  split
  · split
    · split <;> rfl
    · rfl
  · split
    · split <;> rfl
    · rfl

theorem cover_replace {new : Segment} (x : Nat)
    (h : (if new.Contains x then 1 else 0) = (if seg.Contains x then 1 else 0) +
      if (⟨position, size⟩ : Segment).Contains x then 1 else 0) :
    cover (before ++ new :: after) x = cover (before ++ seg :: after) x +
      if (⟨position, size⟩ : Segment).Contains x then 1 else 0 := by
  simp only [cover_append, cover_cons]
  omega

theorem Sorted.lt_of_ne {prior : Segment} (h : Sorted (before ++ [prior] ++ after))
    (hle : prior.position + prior.size ≤ position) (hne : position ≠ prior.position + prior.size) :
    ∀ x ∈ before ++ [prior], x.position + x.size < position := by
  intro x hx
  rw [List.append_assoc, List.singleton_append] at h
  rcases List.mem_append.mp hx with hx | hx
  · have := h.before_lt x hx
    omega
  · rw [List.mem_singleton.mp hx]
    omega

section Release

variable {s : TempSpace} (hs : Sorted s.freeSegments.items)
  (hle : ∀ x ∈ before, x.position + x.size ≤ position) (hsize : 0 < size)
include hs hle hsize

theorem releaseSpace_sorted_next {next : Segment}
    (hfree : s.freeSegments.items = before ++ next :: after)
    (hnext : next.position = position + size) :
    Sorted (releaseSpace s position size).freeSegments.items ∧
      ∀ x, cover (releaseSpace s position size).freeSegments.items x =
        cover s.freeSegments.items x +
          if (⟨position, size⟩ : Segment).Contains x then 1 else 0 := by
  rw [hfree] at hs ⊢
  obtain ⟨hsome, hnone⟩ := releaseSpace_next hs hfree hnext
  have hpos : 0 < next.size := hs.nonempty next (by simp)
  have hgt := hs.after_gt
  have hjoin : ∀ x, (if (⟨position, next.size + size⟩ : Segment).Contains x then 1 else 0) =
      (if next.Contains x then 1 else 0) +
        if (⟨position, size⟩ : Segment).Contains x then 1 else 0 := by
    intro x
    simp only [Segment.contains_iff]
    split <;> split <;> split <;> omega
  rcases List.eq_nil_or_concat before with hnil | ⟨before', prior, hbefore⟩
  · rw [hnone hnil]
    subst hnil
    refine ⟨@Sorted.insert [] after ⟨position, next.size + size⟩ hs.remove (Nat.add_pos_left hpos _)
      (by simp) fun x hx => ?_, fun x => @cover_replace [] after next position size _ x (hjoin x)⟩
    have := hgt x hx
    change position + (next.size + size) < x.position
    omega
  · rw [List.concat_eq_append] at hbefore
    rw [hsome before' prior hbefore]
    subst hbefore
    have hprior := hle prior (by simp)
    split
    · next hadj =>
      have hrem := hs.remove
      rw [List.append_assoc, List.singleton_append] at hrem
      refine ⟨hrem.remove.insert (Nat.add_pos_left (Nat.add_pos_left hpos _) _) (fun x hx => ?_)
        fun x hx => ?_, fun x => ?_⟩
      · have := hrem.before_lt x hx
        change x.position + x.size < position - prior.size
        omega
      · have := hgt x hx
        change position - prior.size + (next.size + size + prior.size) < x.position
        omega
      · have hfirst : (if (⟨position - prior.size, next.size + size + prior.size⟩ :
          Segment).Contains x
            then 1 else 0) = (if prior.Contains x then 1 else 0) +
            if (⟨position, next.size + size⟩ : Segment).Contains x then 1 else 0 := by
          simp only [Segment.contains_iff]
          split <;> split <;> split <;> omega
        have hx := hjoin x
        simp only [cover_append, cover_cons, cover_nil]
        omega
    · next hne =>
      refine ⟨hs.remove.insert (Nat.add_pos_left hpos _) (hs.lt_of_ne hprior hne) fun x hx => ?_,
        fun x => cover_replace x (hjoin x)⟩
      have := hgt x hx
      change position + (next.size + size) < x.position
      omega

theorem releaseSpace_sorted_other (hfree : s.freeSegments.items = before ++ after)
    (hafter : ∀ x ∈ after, position + size < x.position) :
    Sorted (releaseSpace s position size).freeSegments.items ∧
      ∀ x, cover (releaseSpace s position size).freeSegments.items x =
        cover s.freeSegments.items x +
          if (⟨position, size⟩ : Segment).Contains x then 1 else 0 := by
  have hbefore : ∀ x ∈ before, x.position < position := by
    intro x hx
    have := hle x hx
    have := hs.nonempty x (by simp [hfree, hx])
    omega
  obtain ⟨hsome, hnone⟩ := releaseSpace_other hfree hbefore hafter
  rw [hfree] at hs ⊢
  rcases List.eq_nil_or_concat before with hnil | ⟨before', prior, hbefore⟩
  · rw [hnone hnil]
    subst hnil
    refine ⟨@Sorted.insert [] after ⟨position, size⟩ hs hsize (by simp) hafter, fun x => ?_⟩
    rw [List.nil_append, cover_cons]
  · rw [List.concat_eq_append] at hbefore
    rw [hsome before' prior hbefore]
    subst hbefore
    have hprior := hle prior (by simp)
    split
    · next hadj =>
      rw [List.append_assoc, List.singleton_append] at hs ⊢
      refine ⟨hs.remove.insert (Nat.add_pos_right _ hsize) hs.before_lt fun x hx => ?_,
        fun x => cover_replace x ?_⟩
      · have := hafter x hx
        change prior.position + (prior.size + size) < x.position
        omega
      · simp only [Segment.contains_iff]
        split <;> split <;> split <;> omega
    · next hne =>
      refine ⟨hs.insert hsize (hs.lt_of_ne hprior hne) hafter, fun x => ?_⟩
      simp only [cover_append, cover_cons]
      omega

end Release

theorem releaseSpace_spec (hs : Sorted s.freeSegments.items)
    (ht : Tiles s.freeSegments.items (u₁ ++ seg :: u₂) s.logicalSize) (hsize : 0 < size)
    (hpos : seg.position ≤ position) (hend : position + size = seg.position + seg.size) :
    Sorted (releaseSpace s position size).freeSegments.items ∧
      Tiles (releaseSpace s position size).freeSegments.items
        (u₁ ++ ⟨seg.position, position - seg.position⟩ :: u₂)
        (releaseSpace s position size).logicalSize := by
  rw [releaseSpace_logicalSize]
  obtain ⟨before, after, hfree, hbefore, hafter⟩ :=
    exists_split Segment.position s.freeSegments.items (position + size)
  have hmem : seg ∈ u₁ ++ seg :: u₂ := by simp
  have hle : ∀ x ∈ before, x.position + x.size ≤ position := by
    intro x hx
    have hlt := hbefore x hx
    have hx' : x ∈ s.freeSegments.items := by simp [hfree, hx]
    rcases ht.disjoint hmem hx' (hs.nonempty x hx') (by omega) with h | h <;> omega
  suffices hspec : Sorted (releaseSpace s position size).freeSegments.items ∧
      ∀ x, cover (releaseSpace s position size).freeSegments.items x =
        cover s.freeSegments.items x +
          if (⟨position, size⟩ : Segment).Contains x then 1 else 0 from
    ⟨hspec.1, ht.release hpos hend hspec.2⟩
  cases after with
  | nil => exact releaseSpace_sorted_other hs hle hsize hfree (by simp)
  | cons next rest =>
    have hge : position + size ≤ next.position := hafter next rfl
    by_cases hnext : next.position = position + size
    · exact releaseSpace_sorted_next hs hle hsize hfree hnext
    · refine releaseSpace_sorted_other hs hle hsize hfree fun x hx => ?_
      rw [hfree] at hs
      rcases List.mem_cons.mp hx with rfl | hx
      · omega
      · have := hs.after_gt x hx
        omega

theorem findMemoryLoop_bounds {end' size : Nat} {blocks : List Block} {i begin' offset : Nat}
    {found : Nat × Nat × Nat} (h : findMemoryLoop end' size blocks i begin' offset = some found) :
    begin' ≤ found.1 ∧ found.1 + size ≤ end' := by
  induction blocks generalizing i begin' offset with
  | nil => cases h
  | cons b blocks ih =>
    rw [findMemoryLoop] at h
    split at h
    · next hle =>
      split at h
      · cases h
        exact ⟨Nat.le_refl _, hle⟩
      · obtain ⟨h₁, h₂⟩ := ih h
        exact ⟨by omega, h₂⟩
    · cases h

theorem findMemory_bounds {begin' end' size : Nat} {found : Nat × Nat × Nat}
    (h : findMemory s begin' end' size = some found) :
    begin' ≤ found.1 ∧ found.1 + size ≤ end' := by
  obtain ⟨b, -, hloop⟩ := Option.bind_eq_some_iff.mp h
  exact findMemoryLoop_bounds hloop

variable {freeSeek freeMem : Nat}

def nonEmpty (seg : Segment) : List Segment :=
  if seg.size = 0 then [] else [seg]

theorem mem_nonEmpty {x : Segment} : x ∈ nonEmpty seg ↔ x = seg ∧ 0 < seg.size := by
  rw [nonEmpty]
  split
  · simp
    omega
  · simp
    omega

theorem cover_nonEmpty (x : Nat) : cover (nonEmpty seg) x = if seg.Contains x then 1 else 0 := by
  rw [nonEmpty]
  split
  · rw [cover_nil, if_neg]
    rw [Segment.contains_iff]
    omega
  · rw [cover_cons, cover_nil, Nat.zero_add]

theorem nonEmpty_pairwise : (nonEmpty seg).Pairwise Apart := by
  rw [nonEmpty]
  split
  · exact List.Pairwise.nil
  · exact List.pairwise_singleton _ _

def skipped (seg : Segment) (freeSeek : Nat) : Segment :=
  ⟨seg.position, freeSeek - seg.position⟩

def remaining (seg : Segment) (freeSeek freeMem : Nat) : Segment :=
  ⟨freeSeek + freeMem, seg.position + seg.size - (freeSeek + freeMem)⟩

theorem takeChunk_eq (hs : Sorted (before ++ seg :: after)) (hle : seg.position ≤ freeSeek) :
    takeChunk ⟨before ++ seg :: after, before.length⟩ seg freeSeek freeMem =
      ⟨before ++ nonEmpty (skipped seg freeSeek) ++ remaining seg freeSeek freeMem :: after,
        (before ++ nonEmpty (skipped seg freeSeek)).length⟩ := by
  rw [takeChunk, skipped, remaining, nonEmpty]
  by_cases heq : freeSeek = seg.position
  · subst heq
    simp only [ne_eq, not_true_eq_false, if_false, BePlusTree.modify, modify_append, Nat.sub_self,
      if_true, List.append_nil]
    rw [show seg.position + seg.size - (seg.position + freeMem) = seg.size - freeMem by omega]
  · have hskip : seg.position + (freeSeek - seg.position) = freeSeek := by omega
    have hsize : freeSeek - seg.position ≠ 0 := by omega
    have hadd := @add_append Segment Segment.position before
      (⟨freeSeek, seg.size - (freeSeek - seg.position)⟩ :: after)
      ⟨seg.position, freeSeek - seg.position⟩ before.length
      (fun x hx => by have := hs.before_lt x hx; change x.position < seg.position; omega)
      (by simp; omega)
    have hfind := @find_append Segment Segment.position
      (before ++ [⟨seg.position, freeSeek - seg.position⟩])
      (⟨freeSeek, seg.size - (freeSeek - seg.position)⟩ :: after) freeSeek
      (fun x hx => by
        rcases List.mem_append.mp hx with hx | hx
        · have := hs.before_lt x hx
          omega
        · rw [List.mem_singleton.mp hx]
          change seg.position < freeSeek
          omega)
      (by simp)
    have hmod := @modify_append Segment (before ++ [⟨seg.position, freeSeek - seg.position⟩]) after
      ⟨freeSeek, seg.size - (freeSeek - seg.position)⟩
      fun x => ⟨x.position + freeMem, x.size - freeMem⟩
    rw [List.append_assoc, List.singleton_append] at hfind hmod
    simp only [ne_eq, heq, not_false_eq_true, if_true, hsize, if_false, BePlusTree.modify,
      modify_append, hskip, hadd, BePlusTree.locate, hfind, hmod]
    rw [show seg.size - (freeSeek - seg.position) - freeMem =
      seg.position + seg.size - (freeSeek + freeMem) by omega]

theorem chunk_spec (hs : Sorted (before ++ seg :: after))
    (ht : Tiles (before ++ seg :: after) used logicalSize) (hmem : 0 < freeMem)
    (hle : seg.position ≤ freeSeek) (hend : freeSeek + freeMem ≤ seg.position + seg.size) :
    Sorted (before ++ (nonEmpty (skipped seg freeSeek) ++
        nonEmpty (remaining seg freeSeek freeMem)) ++ after) ∧
      Tiles (before ++ (nonEmpty (skipped seg freeSeek) ++
        nonEmpty (remaining seg freeSeek freeMem)) ++ after) (used ++ [⟨freeSeek, freeMem⟩])
        logicalSize := by
  have hsorted : Sorted (nonEmpty (skipped seg freeSeek) ++
      nonEmpty (remaining seg freeSeek freeMem)) := by
    constructor
    · intro x hx
      rcases List.mem_append.mp hx with hx | hx <;> obtain ⟨rfl, hpos⟩ := mem_nonEmpty.mp hx <;>
        exact hpos
    · refine List.pairwise_append.mpr ⟨nonEmpty_pairwise, nonEmpty_pairwise, fun x hx y hy => ?_⟩
      obtain ⟨rfl, -⟩ := mem_nonEmpty.mp hx
      obtain ⟨rfl, -⟩ := mem_nonEmpty.mp hy
      simp only [Apart, skipped, remaining]
      omega
  refine ⟨hs.replace hsorted fun x hx => ?_, ht.take _ fun x => ?_⟩
  · rcases List.mem_append.mp hx with hx | hx
    · obtain ⟨rfl, -⟩ := mem_nonEmpty.mp hx
      simp only [skipped]
      omega
    · obtain ⟨rfl, -⟩ := mem_nonEmpty.mp hx
      simp only [remaining]
      omega
  · rw [cover_append, cover_nonEmpty, cover_nonEmpty]
    simp only [skipped, remaining, Segment.contains_iff]
    split <;> split <;> split <;> split <;> omega

/-- The segment that a caller of `allocateBatch` gets. -/
def SegmentInMemory.segment (seg : SegmentInMemory) : Segment := ⟨seg.position, seg.size⟩

theorem batchLoop_spec {count fuel : Nat} (hmem : 0 < freeMem)
    {segments : List SegmentInMemory} (hs : Sorted s.freeSegments.items)
    (ht : Tiles s.freeSegments.items (used ++ segments.map SegmentInMemory.segment) s.logicalSize)
    (hfuel : count - segments.length + (s.freeSegments.items.length - s.freeSegments.curPos) <
    fuel) :
    ∃ s' segments', batchLoop count freeMem fuel s segments = some (s', segments') ∧
      Sorted s'.freeSegments.items ∧
      Tiles s'.freeSegments.items (used ++ segments'.map SegmentInMemory.segment)
        s'.logicalSize := by
  induction fuel generalizing s segments with
  | zero => omega
  | succ fuel ih =>
    rw [batchLoop]
    split
    · next hcount =>
      cases hcur : s.freeSegments.current with
      | none => exact ⟨s, segments, rfl, hs, ht⟩
      | some seg =>
        obtain ⟨before, after, hfree, hpos⟩ := exists_append hcur
        simp only
        cases hfound : findMemory s seg.position (seg.position + seg.size) freeMem with
        | none =>
          simp only [BePlusTree.getNext]
          split
          · next hnext => exact ih hs ht (by simp only; omega)
          · exact ⟨_, _, rfl, hs, ht⟩
        | some found =>
          obtain ⟨freeSeek, memory⟩ := found
          obtain ⟨hle, hend⟩ := findMemory_bounds hfound
          rw [hfree] at hs ht
          obtain ⟨hs', ht'⟩ := chunk_spec hs ht hmem hle hend
          have htree : s.freeSegments = ⟨before ++ seg :: after, before.length⟩ := by
            rw [← hfree, ← hpos]
          let chunk : SegmentInMemory := ⟨memory, freeSeek, freeMem⟩
          have hused : used ++ segments.map SegmentInMemory.segment ++ [⟨freeSeek, freeMem⟩] =
              used ++ (segments ++ [chunk]).map SegmentInMemory.segment := by
            rw [List.map_append, List.append_assoc]
            rfl
          rw [hused] at ht'
          rw [hfree, hpos, List.length_append, List.length_cons] at hfuel
          simp only [htree, takeChunk_eq hs hle]
          generalize nonEmpty (skipped seg freeSeek) = skip at hs' ht' ⊢
          have hget : (before ++ skip ++ remaining seg freeSeek freeMem :: after)[
              (before ++ skip).length]? = some (remaining seg freeSeek freeMem) := by simp
          simp only [BePlusTree.current, hget]
          split
          · next hzero =>
            have hnil : nonEmpty (remaining seg freeSeek freeMem) = [] := by
              rw [nonEmpty, if_pos (Option.some.inj hzero)]
            rw [hnil, List.append_nil] at hs' ht'
            simp only [BePlusTree.fastRemove, eraseIdx_append]
            split
            · refine ih hs' ht' ?_
              simp only [List.length_append] at *
              omega
            · exact ⟨_, _, rfl, hs', ht'⟩
          · next hne =>
            have hsome : nonEmpty (remaining seg freeSeek freeMem) =
                [remaining seg freeSeek freeMem] := by
              rw [nonEmpty, if_neg (by simpa using hne)]
            rw [hsome] at hs' ht'
            have happ : before ++ (skip ++ [remaining seg freeSeek freeMem]) ++ after =
                before ++ skip ++ remaining seg freeSeek freeMem :: after := by simp
            rw [happ] at hs' ht'
            refine ih hs' ht' ?_
            simp only [List.length_append, List.length_cons] at *
            omega
    · exact ⟨s, segments, rfl, hs, ht⟩

end Firebird.Jrd.Temp
