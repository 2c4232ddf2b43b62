import Mathlib.Data.List.Nodup
import Mathlib.Data.List.Pairwise
import Mathlib.Logic.Function.Basic

/-!
# Circular doubly linked lists

Cells of an arbitrary type carry a `fwd` and a `bwd` link. A queue is a header cell with its
members in order; it is well formed when the links run from the header through the members
back to the header, in both directions. A family of queues occupies pairwise disjoint cells.
-/
namespace Firebird.Lib.Ring

open List

variable {α : Type} {fwd bwd fwd' bwd' : α → α}

/-- The links lead from `x` through `l` to `y`, forward and backward. -/
def Seg (fwd bwd : α → α) : α → List α → α → Prop
  | x, [], y => fwd x = y ∧ bwd y = x
  | x, a :: l, y => (fwd x = a ∧ bwd a = x) ∧ Seg fwd bwd a l y

theorem seg_append (x : α) (l : List α) (a : α) (m : List α) (y : α) :
    Seg fwd bwd x (l ++ a :: m) y ↔ Seg fwd bwd x l a ∧ Seg fwd bwd a m y := by
  induction l generalizing x with
  | nil => simp [Seg]
  | cons c l ih => simp [Seg, ih, and_assoc]

variable {l : List α} {x y : α}

theorem Seg.frame (h : Seg fwd bwd x l y)
    (hf : ∀ c ∈ x :: l, fwd' c = fwd c) (hb : ∀ c, c ∈ l ∨ c = y → bwd' c = bwd c) :
    Seg fwd' bwd' x l y := by
  induction l generalizing x with
  | nil => exact ⟨(hf x (by simp)).trans h.1, (hb y (by simp)).trans h.2⟩
  | cons a l ih =>
    obtain ⟨⟨hxa, hax⟩, hrest⟩ := h
    refine ⟨⟨(hf x (by simp)).trans hxa, (hb a (by simp)).trans hax⟩, ih hrest ?_ ?_⟩
    · intro c hc
      exact hf c (mem_cons_of_mem _ hc)
    · intro c hc
      exact hb c (hc.imp_left (mem_cons_of_mem _))

theorem Seg.bwd_end_mem (h : Seg fwd bwd x l y) : bwd y ∈ x :: l := by
  induction l generalizing x with
  | nil => simp [h.2]
  | cons a l ih => exact mem_cons_of_mem _ (ih h.2)

theorem Seg.fwd_bwd_end (h : Seg fwd bwd x l y) : fwd (bwd y) = y := by
  induction l generalizing x with
  | nil => rw [h.2, h.1]
  | cons a l ih => exact ih h.2

theorem Seg.fwd_mem (h : Seg fwd bwd x l y) {c : α} (hc : c ∈ x :: l) :
    fwd c ∈ l ∨ fwd c = y := by
  induction l generalizing x with
  | nil =>
    obtain rfl : c = x := by simpa using hc
    exact .inr h.1
  | cons a l ih =>
    rcases mem_cons.mp hc with rfl | hc
    · exact .inl (by simp [h.1.1])
    · exact (ih h.2 hc).imp_left (mem_cons_of_mem _)

theorem Seg.bwd_fwd (h : Seg fwd bwd x l y) {c : α} (hc : c ∈ x :: l) :
    bwd (fwd c) = c := by
  induction l generalizing x with
  | nil =>
    obtain rfl : c = x := by simpa using hc
    rw [h.1, h.2]
  | cons a l ih =>
    rcases mem_cons.mp hc with rfl | hc
    · rw [h.1.1, h.1.2]
    · exact ih h.2 hc

theorem Seg.unique {m : List α} (h : Seg fwd bwd x l y) (h' : Seg fwd bwd x m y)
    (hl : y ∉ l) (hm : y ∉ m) : l = m := by
  induction l generalizing x m with
  | nil =>
    cases m with
    | nil => rfl
    | cons b m => exact absurd (h.1.symm.trans h'.1.1) (by rintro rfl; simp at hm)
  | cons a l ih =>
    cases m with
    | nil => exact absurd (h'.1.symm.trans h.1.1) (by rintro rfl; simp at hl)
    | cons b m =>
      obtain rfl : a = b := h.1.1.symm.trans h'.1.1
      have htail := ih h.2 h'.2 (fun hy => hl (mem_cons_of_mem _ hy))
        (fun hy => hm (mem_cons_of_mem _ hy))
      rw [htail]

section Update

variable [DecidableEq α]

theorem Seg.insert {x y node : α} {l : List α} (h : Seg fwd bwd x l y)
    (hnd : (x :: l).Nodup) (hy : y ∉ l) (hnode : node ∉ x :: l) (hne : node ≠ y) :
    Seg (Function.update (Function.update fwd node y) (bwd y) node)
      (Function.update (Function.update bwd node (bwd y)) y node) x (l ++ [node]) y := by
  induction l generalizing x with
  | nil =>
    have hx : node ≠ x := by simpa using hnode
    simp only [nil_append, Seg, h.2]
    simp [hne, hx]
  | cons a l ih =>
    obtain ⟨⟨hxa, hax⟩, hrest⟩ := h
    have hend : bwd y ∈ a :: l := hrest.bwd_end_mem
    have hxend : x ≠ bwd y := fun e => (nodup_cons.mp hnd).1 (e ▸ hend)
    have hxn : x ≠ node := by rintro rfl; simp at hnode
    have han : a ≠ node := by rintro rfl; simp at hnode
    have hay : a ≠ y := by rintro rfl; simp at hy
    refine ⟨⟨?_, ?_⟩, ih hrest (nodup_cons.mp hnd).2 ?_ ?_⟩
    · simp [hxend, hxn, hxa]
    · simp [hay, han, hax]
    · exact fun hm => hy (mem_cons_of_mem _ hm)
    · exact fun hm => hnode (mem_cons_of_mem _ hm)

theorem Seg.remove {x y node : α} {l m : List α}
    (h₁ : Seg fwd bwd x l node) (h₂ : Seg fwd bwd node m y)
    (hnd : (x :: (l ++ node :: m)).Nodup) (hy : y ∉ l ++ node :: m) :
    Seg (Function.update fwd (bwd node) (fwd node))
      (Function.update bwd (fwd node) (bwd node)) x (l ++ m) y := by
  induction l generalizing x with
  | nil =>
    obtain ⟨hxn, hnx⟩ := h₁
    have hnd' : x ∉ node :: m ∧ node ∉ m ∧ m.Nodup := by
      simpa only [nil_append, nodup_cons] using hnd
    cases m with
    | nil =>
      obtain ⟨hny, hyn⟩ := h₂
      simp [Seg, hnx, hny]
    | cons a m =>
      obtain ⟨⟨hna, han⟩, hrest⟩ := h₂
      refine ⟨by simp [hnx, hna], hrest.frame ?_ ?_⟩
      · intro c hc
        have : c ≠ x := by
          rintro rfl
          exact hnd'.1 (mem_cons_of_mem _ hc)
        simp [hnx, this]
      · intro c hc
        have : c ≠ a := by
          rintro rfl
          rcases hc with hc | rfl
          · exact (nodup_cons.mp hnd'.2.2).1 hc
          · exact hy (by simp)
        simp [hna, this]
  | cons a l ih =>
    obtain ⟨⟨hxa, hax⟩, hrest⟩ := h₁
    obtain ⟨hx, hnd'⟩ := nodup_cons.mp hnd
    have hxb : x ≠ bwd node := by
      intro e
      have := hrest.bwd_end_mem
      rw [← e] at this
      exact hx (by simp only [mem_cons, mem_append] at this ⊢; tauto)
    have haf : a ≠ fwd node := by
      intro e
      rcases h₂.fwd_mem (c := node) (by simp) with hm | hm
      · rw [← e] at hm
        exact (nodup_cons.mp hnd').1 (by simp [hm])
      · exact hy (by simp [← hm, ← e])
    refine ⟨⟨by simp [hxb, hxa], by simp [haf, hax]⟩, ih hrest hnd' ?_⟩
    exact fun hm => hy (mem_cons_of_mem _ hm)

end Update

/-- A queue: its header cell and its members in order. -/
structure Queue (α : Type) where
  head : α
  members : List α
  deriving DecidableEq

namespace Queue

def cells (Q : Queue α) : List α := Q.head :: Q.members

def Linked (fwd bwd : α → α) (Q : Queue α) : Prop :=
  Seg fwd bwd Q.head Q.members Q.head

variable {Q : Queue α}

theorem Linked.frame (h : Q.Linked fwd bwd)
    (hf : ∀ c ∈ Q.cells, fwd' c = fwd c) (hb : ∀ c ∈ Q.cells, bwd' c = bwd c) :
    Q.Linked fwd' bwd' := by
  refine Seg.frame h hf ?_
  rintro c (hc | rfl)
  · exact hb c (mem_cons_of_mem _ hc)
  · exact hb _ (by simp [cells])

variable {c node pos : α}

theorem Linked.fwd_mem (h : Q.Linked fwd bwd) (hc : c ∈ Q.cells) :
    fwd c ∈ Q.cells := by
  rcases Seg.fwd_mem h hc with hm | hm
  · exact mem_cons_of_mem _ hm
  · simp [cells, hm]

theorem Linked.seg_to (h : Q.Linked fwd bwd) (hc : c ∈ Q.cells) :
    ∃ l, Seg fwd bwd Q.head l c ∧ ∀ d ∈ l, d ∈ Q.members := by
  rcases mem_cons.mp hc with rfl | hc
  · exact ⟨Q.members, h, fun _ hd => hd⟩
  · obtain ⟨l, m, hsplit⟩ := append_of_mem hc
    rw [Linked, hsplit, seg_append] at h
    exact ⟨l, h.1, fun d hd => by simp [hsplit, hd]⟩

theorem Linked.bwd_mem (h : Q.Linked fwd bwd) (hc : c ∈ Q.cells) :
    bwd c ∈ Q.cells := by
  obtain ⟨l, hl, hsub⟩ := h.seg_to hc
  rcases mem_cons.mp hl.bwd_end_mem with hm | hm
  · simp [cells, hm]
  · exact mem_cons_of_mem _ (hsub _ hm)

theorem Linked.fwd_bwd (h : Q.Linked fwd bwd) (hc : c ∈ Q.cells) :
    fwd (bwd c) = c := by
  obtain ⟨l, hl, -⟩ := h.seg_to hc
  exact hl.fwd_bwd_end

variable [DecidableEq α]

/-- Put `node` right before the member `pos`, if it is there. -/
def insertMember (pos node : α) : List α → List α
  | [] => []
  | x :: l => if x = pos then node :: x :: l else x :: insertMember pos node l

theorem insertMember_of_notMem {l : List α} (h : pos ∉ l) :
    insertMember pos node l = l := by
  induction l with
  | nil => rfl
  | cons x l ih =>
    have hx : x ≠ pos := by rintro rfl; simp at h
    simp [insertMember, hx, ih (fun hm => h (mem_cons_of_mem _ hm))]

theorem insertMember_split {l m : List α} (h : pos ∉ l) :
    insertMember pos node (l ++ pos :: m) = l ++ node :: pos :: m := by
  induction l with
  | nil => simp [insertMember]
  | cons x l ih =>
    have hx : x ≠ pos := by rintro rfl; simp at h
    simp [insertMember, hx, ih (fun hm => h (mem_cons_of_mem _ hm))]

/-- Insert `node` before the cell `pos`: at the tail when `pos` is the header. A queue without
`pos` stays as it is. -/
def insertBefore (pos node : α) (Q : Queue α) : Queue α :=
  if pos = Q.head then { Q with members := Q.members ++ [node] }
  else { Q with members := insertMember pos node Q.members }

/-- Take the member `node` out. -/
def remove (node : α) (Q : Queue α) : Queue α := { Q with members := Q.members.erase node }

@[simp] theorem insertBefore_head (pos node : α) (Q : Queue α) :
    (Q.insertBefore pos node).head = Q.head := by
  unfold insertBefore; split <;> rfl

@[simp] theorem remove_head (node : α) (Q : Queue α) : (Q.remove node).head = Q.head := rfl

theorem insertBefore_of_notMem (h : pos ∉ Q.cells) :
    Q.insertBefore pos node = Q := by
  have hh : pos ≠ Q.head := by rintro rfl; simp [cells] at h
  simp [insertBefore, hh, insertMember_of_notMem (fun hm => h (mem_cons_of_mem _ hm))]

theorem remove_of_notMem (h : node ∉ Q.members) :
    Q.remove node = Q := by
  simp [remove, erase_of_not_mem h]

theorem insertBefore_cells_perm (hpos : pos ∈ Q.cells) :
    (Q.insertBefore pos node).cells.Perm (node :: Q.cells) := by
  by_cases hh : pos = Q.head
  · simp only [insertBefore, if_pos hh]
    exact perm_append_singleton node (Q.head :: Q.members)
  · have hm : pos ∈ Q.members := (mem_cons.mp hpos).resolve_left hh
    obtain ⟨l, m, hsplit, hl⟩ := eq_append_cons_of_mem hm
    simp only [insertBefore, if_neg hh, cells, hsplit, insertMember_split hl]
    rw [← cons_append, ← cons_append]
    exact perm_middle

theorem Linked.insertBefore (h : Q.Linked fwd bwd)
    (hnd : Q.cells.Nodup) (hpos : pos ∈ Q.cells) (hnode : node ∉ Q.cells) :
    (Q.insertBefore pos node).Linked
      (Function.update (Function.update fwd node pos) (bwd pos) node)
      (Function.update (Function.update bwd node (bwd pos)) pos node) := by
  have hne : node ≠ pos := by rintro rfl; exact hnode hpos
  by_cases hh : pos = Q.head
  · subst hh
    simp only [Queue.insertBefore]
    exact Seg.insert h hnd (nodup_cons.mp hnd).1 hnode hne
  · have hm : pos ∈ Q.members := (mem_cons.mp hpos).resolve_left hh
    obtain ⟨l, m, hsplit⟩ := append_of_mem hm
    have hnd' : (Q.head :: (l ++ pos :: m)).Nodup := hsplit ▸ hnd
    have hl : pos ∉ l := by grind
    simp only [Queue.insertBefore, if_neg hh, Linked, hsplit, insertMember_split hl]
    rw [Linked, hsplit, seg_append] at h
    have hnl : node ∉ Q.head :: l := by
      intro hm'
      refine hnode ?_
      simp only [cells, hsplit, mem_cons, mem_append] at hm' ⊢
      tauto
    have hseg := Seg.insert h.1 (by grind) hl hnl hne
    have hend := h.1.bwd_end_mem
    rw [show l ++ node :: pos :: m = (l ++ [node]) ++ pos :: m by simp, seg_append]
    -- The cells from `pos` on keep their links: the new ones start before `pos`.
    refine ⟨hseg, h.2.frame ?_ ?_⟩
    · intro c hc
      have h₁ : c ≠ bwd pos := by grind
      have h₂ : c ≠ node := by
        rintro rfl
        exact hnode (by simp only [cells, hsplit, mem_cons, mem_append]; simp at hc; tauto)
      simp [h₁, h₂]
    · intro c hc
      have h₁ : c ≠ pos := by grind
      have h₂ : c ≠ node := by
        rintro rfl
        exact hnode (by simp only [cells, hsplit, mem_cons, mem_append]; tauto)
      simp [h₁, h₂]

theorem Linked.remove (h : Q.Linked fwd bwd) (hnd : Q.cells.Nodup)
    (hnode : node ∈ Q.members) :
    (Q.remove node).Linked (Function.update fwd (bwd node) (fwd node))
      (Function.update bwd (fwd node) (bwd node)) := by
  obtain ⟨l, m, hsplit⟩ := append_of_mem hnode
  have hnd' : (Q.head :: (l ++ node :: m)).Nodup := hsplit ▸ hnd
  have herase : Q.members.erase node = l ++ m := by
    rw [hsplit, erase_append_right _ (by grind), erase_cons_head]
  rw [Linked, hsplit, seg_append] at h
  simp only [Queue.remove, herase]
  exact Seg.remove h.1 h.2 hnd' (nodup_cons.mp hnd').1

end Queue

abbrev Family (α : Type) := List (Queue α)

namespace Family

/-- `c` is the header or a member of one of the queues. -/
def Mem (F : Family α) (c : α) : Prop := ∃ Q ∈ F, c ∈ Q.cells

def heads (F : Family α) : List α := F.map Queue.head

def Distinct (F : Family α) : Prop :=
  (∀ Q ∈ F, Q.cells.Nodup) ∧ F.Pairwise fun Q Q' => Q.cells.Disjoint Q'.cells

/-- The links are exactly those of the queues of the family. -/
def Holds (fwd bwd : α → α) (F : Family α) : Prop :=
  F.Distinct ∧ ∀ Q ∈ F, Q.Linked fwd bwd

variable {F : Family α}

theorem Holds.frame (h : F.Holds fwd bwd)
    (hf : ∀ c, F.Mem c → fwd' c = fwd c) (hb : ∀ c, F.Mem c → bwd' c = bwd c) :
    F.Holds fwd' bwd' :=
  ⟨h.1, fun Q hQ => (h.2 Q hQ).frame (fun c hc => hf c ⟨Q, hQ, hc⟩) (fun c hc => hb c ⟨Q, hQ, hc⟩)⟩

variable {c node pos : α}

theorem Holds.fwd_mem (h : F.Holds fwd bwd) (hc : F.Mem c) :
    F.Mem (fwd c) := by
  obtain ⟨Q, hQ, hc⟩ := hc
  exact ⟨Q, hQ, (h.2 Q hQ).fwd_mem hc⟩

theorem Holds.bwd_mem (h : F.Holds fwd bwd) (hc : F.Mem c) :
    F.Mem (bwd c) := by
  obtain ⟨Q, hQ, hc⟩ := hc
  exact ⟨Q, hQ, (h.2 Q hQ).bwd_mem hc⟩

theorem Holds.fwd_bwd (h : F.Holds fwd bwd) (hc : F.Mem c) :
    fwd (bwd c) = c := by
  obtain ⟨Q, hQ, hc⟩ := hc
  exact (h.2 Q hQ).fwd_bwd hc

theorem Holds.bwd_fwd (h : F.Holds fwd bwd) (hc : F.Mem c) :
    bwd (fwd c) = c := by
  obtain ⟨Q, hQ, hc⟩ := hc
  exact Seg.bwd_fwd (h.2 Q hQ) hc

theorem Holds.unique {F' : Family α} (h : F.Holds fwd bwd) (h' : F'.Holds fwd bwd)
    (heads : F.heads = F'.heads) : F = F' := by
  have hlen : F.length = F'.length := by simpa [Family.heads] using congrArg List.length heads
  refine ext_getElem hlen fun i hi hi' => ?_
  have hhead : F[i].head = F'[i].head := by
    have := congrArg (·[i]?) heads
    simpa [Family.heads, hi, hi'] using this
  have hQ := h.2 _ (getElem_mem hi)
  have hQ' := h'.2 _ (getElem_mem hi')
  have hnd := (nodup_cons.mp (h.1.1 _ (getElem_mem hi))).1
  have hnd' := (nodup_cons.mp (h'.1.1 _ (getElem_mem hi'))).1
  generalize F[i] = Q at *
  generalize F'[i] = Q' at *
  obtain ⟨hd, ms⟩ := Q
  obtain ⟨hd', ms'⟩ := Q'
  obtain rfl : hd = hd' := hhead
  exact congrArg (Queue.mk hd) (Seg.unique hQ hQ' hnd hnd')

theorem Distinct.map (h : F.Distinct) (g : Queue α → Queue α)
    (hnd : ∀ Q ∈ F, (g Q).cells.Nodup)
    (hdisj : ∀ Q ∈ F, ∀ Q' ∈ F, Q.cells.Disjoint Q'.cells → (g Q).cells.Disjoint (g Q').cells) :
    Distinct (F.map g) := by
  refine ⟨by simpa using hnd, pairwise_map.mpr ?_⟩
  exact h.2.imp_of_mem fun hQ hQ' hd => hdisj _ hQ _ hQ' hd

variable [DecidableEq α]

/-- Insert `node` before the cell `pos`. -/
def insertBefore (pos node : α) (F : Family α) : Family α := F.map (Queue.insertBefore pos node)

/-- Take the member `node` out. -/
def remove (node : α) (F : Family α) : Family α := F.map (Queue.remove node)

@[simp] theorem heads_insertBefore (pos node : α) (F : Family α) :
    (F.insertBefore pos node).heads = F.heads := by
  simp [heads, insertBefore]

@[simp] theorem heads_remove (node : α) (F : Family α) : (F.remove node).heads = F.heads := by
  simp [heads, remove]

theorem mem_insertBefore (h : (F.insertBefore pos node).Mem c) :
    c = node ∨ F.Mem c := by
  obtain ⟨_, hmap, hc⟩ := h
  obtain ⟨Q, hQ, rfl⟩ := mem_map.mp hmap
  by_cases hpos : pos ∈ Q.cells
  · rcases mem_cons.mp ((Queue.insertBefore_cells_perm hpos).mem_iff.mp hc) with rfl | hc
    · exact .inl rfl
    · exact .inr ⟨Q, hQ, hc⟩
  · rw [Queue.insertBefore_of_notMem hpos] at hc
    exact .inr ⟨Q, hQ, hc⟩

theorem Distinct.insertBefore (h : F.Distinct)
    (hnode : ¬ F.Mem node) : (F.insertBefore pos node).Distinct := by
  have hout : ∀ Q ∈ F, node ∉ Q.cells := fun Q hQ hc => hnode ⟨Q, hQ, hc⟩
  have hmem : ∀ Q : Queue α, ∀ c ∈ (Q.insertBefore pos node).cells,
      c ∈ Q.cells ∨ c = node ∧ pos ∈ Q.cells := by
    intro Q c hc
    by_cases hpos : pos ∈ Q.cells
    · have := (Queue.insertBefore_cells_perm hpos).mem_iff.mp hc
      simp only [mem_cons] at this
      tauto
    · rw [Queue.insertBefore_of_notMem hpos] at hc
      exact .inl hc
  refine h.map _ ?_ ?_
  · intro Q hQ
    by_cases hpos : pos ∈ Q.cells
    · rw [(Queue.insertBefore_cells_perm hpos).nodup_iff, nodup_cons]
      exact ⟨hout Q hQ, h.1 Q hQ⟩
    · rw [Queue.insertBefore_of_notMem hpos]
      exact h.1 Q hQ
  · intro Q hQ Q' hQ' hd c hc hc'
    rcases hmem Q c hc with hc | ⟨rfl, hp⟩ <;> rcases hmem Q' c hc' with hc' | ⟨e, hp'⟩
    · exact hd hc hc'
    · exact hout Q hQ (e ▸ hc)
    · exact hout Q' hQ' hc'
    · exact hd hp hp'

theorem Holds.insertBefore (h : F.Holds fwd bwd)
    (hpos : F.Mem pos) (hnode : ¬ F.Mem node) :
    (F.insertBefore pos node).Holds
      (Function.update (Function.update fwd node pos) (bwd pos) node)
      (Function.update (Function.update bwd node (bwd pos)) pos node) := by
  refine ⟨h.1.insertBefore hnode, ?_⟩
  intro Q' hQ'
  obtain ⟨Q, hQ, rfl⟩ := mem_map.mp hQ'
  have hlinked := h.2 Q hQ
  have hout : node ∉ Q.cells := fun hc => hnode ⟨Q, hQ, hc⟩
  by_cases hp : pos ∈ Q.cells
  · exact hlinked.insertBefore (h.1.1 Q hQ) hp hout
  · rw [Queue.insertBefore_of_notMem hp]
    refine hlinked.frame ?_ ?_
    · intro c hc
      have h₁ : c ≠ bwd pos := by
        rintro rfl
        exact hp (h.fwd_bwd hpos ▸ hlinked.fwd_mem hc)
      have h₂ : c ≠ node := fun e => hout (e ▸ hc)
      simp [h₁, h₂]
    · intro c hc
      have h₁ : c ≠ pos := fun e => hp (e ▸ hc)
      have h₂ : c ≠ node := fun e => hout (e ▸ hc)
      simp [h₁, h₂]

theorem remove_cells_subset (node : α) (Q : Queue α) : (Q.remove node).cells ⊆ Q.cells := by
  intro c hc
  rcases mem_cons.mp hc with rfl | hc
  · simp [Queue.cells]
  · exact mem_cons_of_mem _ (mem_of_mem_erase hc)

theorem mem_of_mem_remove (h : (F.remove node).Mem c) : F.Mem c := by
  obtain ⟨_, hmap, hc⟩ := h
  obtain ⟨Q, hQ, rfl⟩ := mem_map.mp hmap
  exact ⟨Q, hQ, remove_cells_subset node Q hc⟩

theorem Distinct.remove (h : F.Distinct) :
    (F.remove node).Distinct := by
  refine h.map _ ?_ ?_
  · intro Q hQ
    exact Nodup.sublist ((erase_sublist).cons_cons Q.head) (h.1 Q hQ)
  · intro Q _ Q' _ hd
    exact disjoint_of_subset_left (remove_cells_subset node Q)
      (disjoint_of_subset_right (remove_cells_subset node Q') hd)

theorem remove_of_not_mem (h : ¬ F.Mem node) : F.remove node = F := by
  have hout : ∀ Q ∈ F, Q.remove node = Q := fun Q hQ =>
    Queue.remove_of_notMem fun hm => h ⟨Q, hQ, mem_cons_of_mem _ hm⟩
  simpa [remove] using map_congr_left hout

theorem not_mem_remove (h : F.Distinct) {Q : Queue α} (hQ : Q ∈ F)
    (hnode : node ∈ Q.members) : ¬ (F.remove node).Mem node := by
  rintro ⟨_, hmap, hc⟩
  obtain ⟨Q', hQ', rfl⟩ := mem_map.mp hmap
  have hin : node ∈ Q'.cells := remove_cells_subset node Q' hc
  obtain rfl : Q' = Q := by
    by_contra hne
    have : Std.Symm fun Q Q' : Queue α => Q.cells.Disjoint Q'.cells :=
      ⟨fun _ _ hd _ h₁ h₂ => hd h₂ h₁⟩
    exact h.2.forall hQ' hQ hne hin (mem_cons_of_mem _ hnode)
  have hnd := nodup_cons.mp (h.1 Q' hQ)
  rcases mem_cons.mp hc with e | hc
  · exact hnd.1 (e ▸ hnode)
  · exact hnd.2.not_mem_erase hc

theorem Holds.remove (h : F.Holds fwd bwd) {Q : Queue α} (hQ : Q ∈ F)
    (hnode : node ∈ Q.members) :
    (F.remove node).Holds (Function.update fwd (bwd node) (fwd node))
      (Function.update bwd (fwd node) (bwd node)) := by
  refine ⟨h.1.remove, ?_⟩
  intro _ hmap
  obtain ⟨Q', hQ', rfl⟩ := mem_map.mp hmap
  have hlinked := h.2 Q' hQ'
  by_cases hin : node ∈ Q'.members
  · exact hlinked.remove (h.1.1 Q' hQ') hin
  · have hout : node ∉ Q'.cells := by
      intro hc
      have := not_mem_remove h.1 hQ hnode
      refine this ⟨Q'.remove node, mem_map_of_mem hQ', ?_⟩
      rwa [Queue.remove_of_notMem hin]
    rw [Queue.remove_of_notMem hin]
    -- Neither neighbour of `node` lies on a queue without `node`.
    have hmem : F.Mem node := ⟨Q, hQ, mem_cons_of_mem _ hnode⟩
    refine hlinked.frame ?_ ?_
    · intro c hc
      have : c ≠ bwd node := by
        rintro rfl
        exact hout (h.fwd_bwd hmem ▸ hlinked.fwd_mem hc)
      simp [this]
    · intro c hc
      have : c ≠ fwd node := by
        rintro rfl
        exact hout (h.bwd_fwd hmem ▸ hlinked.bwd_mem hc)
      simp [this]

end Family

end Firebird.Lib.Ring
