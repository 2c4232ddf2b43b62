import Mathlib.Order.Interval.Finset.Nat
import Mathlib.Tactic.Ring

/-!
# Areas that do not overlap

An area of a memory is given by its first cell and its number of cells.
-/
namespace Firebird.Lib.Interval

open List

/-- Two areas without a common cell, one after the other. -/
def Apart (a b : Nat × Nat) : Prop := a.1 + a.2 ≤ b.1 ∨ b.1 + b.2 ≤ a.1

theorem Apart.symm {a b : Nat × Nat} (h : Apart a b) : Apart b a := Or.symm h

def cells (l : List (Nat × Nat)) : Finset Nat :=
  l.foldr (fun a s => Finset.Ico a.1 (a.1 + a.2) ∪ s) ∅

theorem mem_cells {l : List (Nat × Nat)} {x : Nat} :
    x ∈ cells l ↔ ∃ a ∈ l, a.1 ≤ x ∧ x < a.1 + a.2 := by
  induction l with
  | nil => simp [cells]
  | cons a l ih =>
    rw [cells, foldr_cons, Finset.mem_union, Finset.mem_Ico, exists_mem_cons_iff]
    exact or_congr_right ih

theorem card_cells {l : List (Nat × Nat)} (h : l.Pairwise Apart) :
    (cells l).card = (l.map Prod.snd).sum := by
  induction l with
  | nil => rfl
  | cons a l ih =>
    obtain ⟨ha, hl⟩ := pairwise_cons.1 h
    have hdisj : Disjoint (Finset.Ico a.1 (a.1 + a.2)) (cells l) := by
      refine Finset.disjoint_left.2 fun x hx hxl => ?_
      obtain ⟨b, hb, hxb⟩ := mem_cells.1 hxl
      have hab := ha b hb
      have hxa := Finset.mem_Ico.1 hx
      unfold Apart at hab
      omega
    change (Finset.Ico a.1 (a.1 + a.2) ∪ cells l).card = _
    rw [Finset.card_union_of_disjoint hdisj, Nat.card_Ico, ih hl, map_cons, sum_cons,
      Nat.add_sub_cancel_left]

theorem sum_le {l : List (Nat × Nat)} {lo hi : Nat} (h : l.Pairwise Apart)
    (hin : ∀ a ∈ l, lo ≤ a.1 ∧ a.1 + a.2 ≤ hi) : (l.map Prod.snd).sum ≤ hi - lo := by
  rw [← card_cells h, ← Nat.card_Ico]
  refine Finset.card_le_card fun x hx => ?_
  obtain ⟨a, ha, hxa⟩ := mem_cells.1 hx
  have := hin a ha
  exact Finset.mem_Ico.2 (by omega)

end Firebird.Lib.Interval
