import Mathlib.Logic.Function.Basic
import Mathlib.Tactic.SplitIfs

/-!
# Marks of a generation

Every walk has a number of its own, and what it has seen carries that number, so nothing has to be
cleared before the next walk. The numbers are 32 bits wide: if they start again, all marks are
cleared.
-/
namespace Firebird.Lib

structure Generation (α : Type*) where
  current : UInt32
  mark : α → UInt32

namespace Generation

variable {α : Type*}

def init : Generation α := ⟨0, fun _ => 0⟩

def next (g : Generation α) : Generation α :=
  if g.current + 1 = 0 then ⟨1, fun _ => 0⟩ else ⟨g.current + 1, g.mark⟩

def Bounded (g : Generation α) : Prop := ∀ x, g.mark x ≤ g.current

theorem bounded_init : (init : Generation α).Bounded := fun _ => UInt32.le_refl 0

theorem Bounded.next_fresh {g : Generation α} (h : g.Bounded) (x : α) :
    g.next.mark x ≠ g.next.current := by
  unfold next
  split_ifs with hwrap
  · exact (by decide : (0 : UInt32) ≠ 1)
  · have hx := UInt32.le_iff_toNat_le.1 (h x)
    have hlt := g.current.toNat_lt
    rw [← UInt32.toNat_inj, UInt32.toNat_add] at hwrap
    intro heq
    rw [← UInt32.toNat_inj, UInt32.toNat_add] at heq
    simp only [UInt32.reduceToNat] at hwrap heq
    omega

theorem Bounded.next {g : Generation α} (h : g.Bounded) : g.next.Bounded := by
  intro x
  unfold Generation.next
  split_ifs with hwrap
  · exact UInt32.zero_le
  · have hx := UInt32.le_iff_toNat_le.1 (h x)
    have hlt := g.current.toNat_lt
    rw [← UInt32.toNat_inj, UInt32.toNat_add] at hwrap
    rw [UInt32.le_iff_toNat_le, UInt32.toNat_add]
    simp only [UInt32.reduceToNat] at hwrap ⊢
    omega

theorem Bounded.walk {g : Generation α} (h : g.Bounded) {mark : α → UInt32}
    (hmark : ∀ x, mark x = g.mark x ∨ mark x = g.current) : Bounded ⟨g.current, mark⟩ := by
  intro x
  change mark x ≤ g.current
  obtain hx | hx := hmark x
  · rw [hx]
    exact h x
  · rw [hx]
    exact UInt32.le_refl _

end Generation

end Firebird.Lib
