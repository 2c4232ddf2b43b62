import Mathlib.Data.List.Basic
import Mathlib.Data.List.Nodup
import Mathlib.Logic.Function.Basic

/-!
# Lists that are linked in both directions

Cells with a link to the next cell and one to the cell before. A list of cells is linked if these
links are the ones of the list, with none behind its last cell and in front of its first one.
-/
namespace Firebird.Lib.Links

open List

variable {ι : Type*}

def LinkedFrom (next prev : ι → Option ι) : Option ι → List ι → Prop
  | _, [] => True
  | p, a :: l => prev a = p ∧ next a = l.head? ∧ LinkedFrom next prev (some a) l

def Linked (next prev : ι → Option ι) (l : List ι) : Prop := LinkedFrom next prev none l

variable {next prev next' prev' : ι → Option ι} {p : Option ι} {a b x y : ι} {l k : List ι}

theorem LinkedFrom.congr (h : LinkedFrom next prev p l) (hnext : ∀ a ∈ l, next' a = next a)
    (hprev : ∀ a ∈ l, prev' a = prev a) : LinkedFrom next' prev' p l := by
  induction l generalizing p with
  | nil => trivial
  | cons a l ih =>
    obtain ⟨hp, hn, hl⟩ := h
    refine ⟨by rw [hprev a (by simp), hp], by rw [hnext a (by simp), hn], ih hl ?_ ?_⟩
    · exact fun b hb => hnext b (mem_cons_of_mem _ hb)
    · exact fun b hb => hprev b (mem_cons_of_mem _ hb)

theorem Linked.congr (h : Linked next prev l) (hnext : ∀ a ∈ l, next' a = next a)
    (hprev : ∀ a ∈ l, prev' a = prev a) : Linked next' prev' l :=
  LinkedFrom.congr h hnext hprev

theorem LinkedFrom.cell (h : LinkedFrom next prev p (l ++ a :: k)) :
    prev a = l.getLast?.or p ∧ next a = k.head? := by
  induction l generalizing p with
  | nil => exact ⟨by simpa using h.1, h.2.1⟩
  | cons b l ih =>
    obtain ⟨-, -, h⟩ := h
    obtain ⟨hp, hn⟩ := ih h
    refine ⟨?_, hn⟩
    rw [hp, getLast?_cons]
    cases l.getLast? <;> simp

theorem Linked.prev_eq (h : Linked next prev (l ++ a :: k)) : prev a = l.getLast? := by
  have hcell := (LinkedFrom.cell h).1
  simpa using hcell

theorem Linked.next_eq (h : Linked next prev (l ++ a :: k)) : next a = k.head? :=
  (LinkedFrom.cell h).2

theorem LinkedFrom.head (h : LinkedFrom next prev p l) {q : Option ι}
    (hhead : ∀ a ∈ l.head?, prev' a = q) (hnext : ∀ a ∈ l, next' a = next a)
    (hprev : ∀ a ∈ l.tail, prev' a = prev a) : LinkedFrom next' prev' q l := by
  cases l with
  | nil => trivial
  | cons a l =>
    obtain ⟨-, hn, hl⟩ := h
    refine ⟨hhead a rfl, by rw [hnext a (by simp), hn], hl.congr ?_ hprev⟩
    exact fun b hb => hnext b (mem_cons_of_mem _ hb)

theorem LinkedFrom.insert (h : LinkedFrom next prev p (l ++ x :: k))
    (hnext : ∀ a ∈ l ++ k, next' a = next a) (hx : next' x = some y) (hy : next' y = k.head?)
    (hprev : ∀ a ∈ l ++ x :: k.tail, prev' a = prev a) (hy' : prev' y = some x)
    (hk : ∀ a ∈ k.head?, prev' a = some y) : LinkedFrom next' prev' p (l ++ x :: y :: k) := by
  induction l generalizing p with
  | nil =>
    obtain ⟨hp, hn, hl⟩ := h
    refine ⟨by rw [hprev x (by simp), hp], by rw [hx, head?_cons], hy', hy, ?_⟩
    refine hl.head hk (fun a ha => hnext a (by simpa using ha)) fun a ha => hprev a ?_
    simp [ha]
  | cons b l ih =>
    obtain ⟨hp, hn, hl⟩ := h
    refine ⟨by rw [hprev b (by simp), hp], ?_, ih hl ?_ ?_⟩
    · rw [hnext b (by simp), hn]
      cases l <;> rfl
    · exact fun a ha => hnext a (mem_cons_of_mem _ ha)
    · exact fun a ha => hprev a (mem_cons_of_mem _ ha)

theorem LinkedFrom.remove (h : LinkedFrom next prev p (l ++ y :: k))
    (hnext : ∀ a ∈ l.dropLast ++ k, next' a = next a) (hlast : ∀ a ∈ l.getLast?, next' a = k.head?)
    (hprev : ∀ a ∈ l ++ k.tail, prev' a = prev a)
    (hk : ∀ a ∈ k.head?, prev' a = l.getLast?.or p) : LinkedFrom next' prev' p (l ++ k) := by
  induction l generalizing p with
  | nil =>
    obtain ⟨hp, hn, hl⟩ := h
    refine hl.head (fun a ha => ?_) (fun a ha => hnext a (by simpa using ha))
      fun a ha => hprev a (by simpa using ha)
    simpa using hk a ha
  | cons b l ih =>
    obtain ⟨hp, hn, hl⟩ := h
    refine ⟨by rw [hprev b (by simp), hp], ?_, ih hl ?_ ?_ ?_ ?_⟩
    · cases l with
      | nil => simpa using hlast b rfl
      | cons c l => rw [hnext b (by simp), hn]; rfl
    · intro a ha
      refine hnext a ?_
      cases l with
      | nil => simpa using ha
      | cons c l =>
        exact mem_cons_of_mem _ ha
    · intro a ha
      refine hlast a ?_
      rw [getLast?_cons]
      cases hl' : l.getLast? with
      | none => simp [hl'] at ha
      | some c =>
        rw [hl'] at ha
        simpa using ha
    · exact fun a ha => hprev a (mem_cons_of_mem _ ha)
    · intro a ha
      rw [hk a ha, getLast?_cons]
      cases l.getLast? <;> simp

end Firebird.Lib.Links
