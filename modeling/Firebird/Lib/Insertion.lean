import Mathlib.Data.List.Pairwise
import Mathlib.Data.List.Perm.Basic

/-!
# Insertion in front of an element

Insertion in front of the first element that fits, into a list in which each element is related to
all that follow.
-/
namespace Firebird.Lib.Insertion

open List

variable {α : Type*} {R : α → α → Prop} {xs : List α} {a : α} {stop : α → Bool}

/-- Insert in front of the first element at which to `stop`, or at the end. -/
def insertBefore (stop : α → Bool) (a : α) : List α → List α
  | [] => [a]
  | x :: xs => if stop x then a :: x :: xs else x :: insertBefore stop a xs

theorem insertBefore_perm (stop : α → Bool) (a : α) (xs : List α) :
    (insertBefore stop a xs).Perm (a :: xs) := by
  induction xs with
  | nil => exact .refl _
  | cons x xs ih =>
    unfold insertBefore
    split
    · exact .refl _
    · exact (ih.cons x).trans (.swap a x xs)

theorem insertBefore_pairwise (h : xs.Pairwise R) (hon : ∀ x ∈ xs, stop x = false → R x a)
    (hhere : ∀ x ∈ xs, stop x = true → R a x)
    (htrans : ∀ x ∈ xs, ∀ y ∈ xs, stop x = true → R x y → R a y) :
    (insertBefore stop a xs).Pairwise R := by
  induction xs with
  | nil => exact pairwise_singleton _ _
  | cons x xs ih =>
    obtain ⟨hx, hxs⟩ := pairwise_cons.mp h
    unfold insertBefore
    split
    · next hstop =>
      refine pairwise_cons.mpr ⟨fun y hy => ?_, h⟩
      rcases mem_cons.mp hy with rfl | hin
      · exact hhere y hy hstop
      · exact htrans x (by simp) y hy hstop (hx y hin)
    · next hgo =>
      refine pairwise_cons.mpr ⟨fun y hy => ?_, ?_⟩
      · rcases mem_cons.mp ((insertBefore_perm stop a xs).mem_iff.mp hy) with rfl | hy
        · exact hon x (by simp) (by simpa using hgo)
        · exact hx y hy
      · exact ih hxs (fun y hy => hon y (mem_cons_of_mem _ hy))
          (fun y hy => hhere y (mem_cons_of_mem _ hy)) fun y hy z hz =>
          htrans y (mem_cons_of_mem _ hy) z (mem_cons_of_mem _ hz)

end Firebird.Lib.Insertion
