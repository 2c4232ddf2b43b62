import Mathlib.Order.CompletePartialOrder
import Mathlib.Data.Set.Lattice

/-!
# Steps with footprints

A step on a memory that changes only the letters of a set of places, and looks at no others. When
the sets of a list of steps are disjoint, each step finds its places as they were at the start, and
the others leave its result as it is.
-/
namespace Firebird.Lib.Footprint

open List

variable {A V ι : Type*}

structure Confined (f : (A → V) → A → V) (s : Set A) : Prop where
  frame : ∀ m, Set.EqOn (f m) m sᶜ
  looks : ∀ m m', Set.EqOn m m' s → Set.EqOn (f m) (f m') s

variable {f : (A → V) → ι → A → V} {s : ι → Set A} {l : List ι} {i : ι}

theorem foldl_frame {t : Set A} (hconf : ∀ i ∈ l, Confined (f · i) (s i))
    (hdisj : ∀ i ∈ l, Disjoint (s i) t) (m : A → V) : Set.EqOn (l.foldl f m) m t := by
  induction l generalizing m with
  | nil => exact Set.eqOn_refl m t
  | cons i l ih =>
    refine (ih (fun j hj => hconf j (mem_cons_of_mem i hj))
      (fun j hj => hdisj j (mem_cons_of_mem i hj)) (f m i)).trans ?_
    refine ((hconf i mem_cons_self).frame m).mono ?_
    exact (Set.disjoint_left.1 (hdisj i mem_cons_self).symm)

theorem foldl_eqOn (hconf : ∀ i ∈ l, Confined (f · i) (s i))
    (hdisj : l.Pairwise fun i j => Disjoint (s i) (s j)) (hi : i ∈ l) (m : A → V) :
    Set.EqOn (l.foldl f m) (f m i) (s i) := by
  induction l generalizing m with
  | nil => cases hi
  | cons j l ih =>
    obtain ⟨hj, hl⟩ := pairwise_cons.1 hdisj
    have hconf' : ∀ i ∈ l, Confined (f · i) (s i) := fun i hi => hconf i (mem_cons_of_mem j hi)
    rcases mem_cons.1 hi with rfl | hmem
    · exact foldl_frame hconf' (fun k hk => (hj k hk).symm) (f m i)
    · refine (ih hconf' hl hmem (f m j)).trans ?_
      refine (hconf i hi).looks _ _ ?_
      refine ((hconf j mem_cons_self).frame m).mono ?_
      exact Set.disjoint_left.1 (hj i hmem).symm

end Firebird.Lib.Footprint
