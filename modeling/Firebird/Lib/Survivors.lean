import Mathlib.Data.List.Pairwise
import Mathlib.Order.Lattice

/-!
# The last of each kind

A list from which each element goes that is the same as the one that follows it.
-/
namespace Firebird.Lib.Survivors

open List

variable {α β : Type*} {same : α → α → Bool} {f : α → β} {l : List α} {a b : α}

def survivors (same : α → α → Bool) : List α → List α
  | [] => []
  | [a] => [a]
  | a :: b :: l => if same a b then survivors same (b :: l) else a :: survivors same (b :: l)

theorem survivors_sublist (same : α → α → Bool) (l : List α) : survivors same l <+ l := by
  fun_induction survivors same l with
  | case1 => exact .slnil
  | case2 a => exact .refl _
  | case3 a b l _ ih => exact ih.cons a
  | case4 a b l _ ih => exact ih.cons_cons a

theorem exists_survivor (h : ∀ a b, same a b → f a = f b) (ha : a ∈ l) :
    ∃ b ∈ survivors same l, f b = f a := by
  fun_induction survivors same l generalizing a with
  | case1 => cases ha
  | case2 c => exact ⟨a, ha, rfl⟩
  | case3 c d l hsame ih =>
    rcases mem_cons.1 ha with rfl | ha
    · rw [h a d hsame]
      exact ih mem_cons_self
    · exact ih ha
  | case4 c d l _ ih =>
    rcases mem_cons.1 ha with rfl | ha
    · exact ⟨a, mem_cons_self, rfl⟩
    · obtain ⟨b, hb, heq⟩ := ih ha
      exact ⟨b, mem_cons_of_mem _ hb, heq⟩

theorem survivors_pairwise [LinearOrder β] (h : ∀ a b, f a = f b → same a b)
    (hl : l.Pairwise fun a b => f a ≤ f b) :
    (survivors same l).Pairwise fun a b => f a < f b := by
  fun_induction survivors same l with
  | case1 => exact .nil
  | case2 a => exact pairwise_singleton _ _
  | case3 a b l _ ih => exact ih (pairwise_cons.1 hl).2
  | case4 a b l hsame ih =>
    obtain ⟨ha, hl⟩ := pairwise_cons.1 hl
    have hlt : f a < f b := (ha b mem_cons_self).lt_of_ne fun heq => hsame (h a b heq)
    refine pairwise_cons.2 ⟨fun c hc => ?_, ih hl⟩
    rcases mem_cons.1 ((survivors_sublist _ _).subset hc) with rfl | hc
    · exact hlt
    · exact hlt.trans_le ((pairwise_cons.1 hl).1 c hc)

end Firebird.Lib.Survivors
