import Mathlib.Data.List.Basic
import Mathlib.Logic.Relation

/-!
# Paths over a list of edges

Which paths an edge adds, which ones are left after the edges into a vertex are taken away, and the
height of a vertex in a graph without cycles.
-/
namespace Firebird.Lib.Dag

open Relation List

variable {α : Type*} {es es' : List (α × α)} {a b x y z : α}

def Path (es : List (α × α)) : α → α → Prop := TransGen fun x y => (x, y) ∈ es

def Acyclic (es : List (α × α)) : Prop := ∀ x, ¬ Path es x x

theorem Path.mono (h : Path es x y) (hsub : es ⊆ es') : Path es' x y :=
  TransGen.mono (fun _ _ he => hsub he) x y h

theorem Path.trans (hxy : Path es x y) (hyz : Path es y z) : Path es x z := TransGen.trans hxy hyz

theorem Path.first (h : Path es x y) : ∃ z, (x, z) ∈ es ∧ (z = y ∨ Path es z y) := by
  induction h using TransGen.head_induction_on with
  | single hxy => exact ⟨y, hxy, .inl rfl⟩
  | head hxz hzy _ => exact ⟨_, hxz, .inr hzy⟩

theorem Path.last (h : Path es x y) : ∃ z, (z, y) ∈ es := by
  cases h with
  | single hxy => exact ⟨x, hxy⟩
  | tail _ hzy => exact ⟨_, hzy⟩

theorem Acyclic.mono (h : Acyclic es') (hsub : es ⊆ es') : Acyclic es :=
  fun x hx => h x (hx.mono hsub)

theorem Path.cons (h : Path ((a, b) :: es) x y) :
    Path es x y ∨ (x = a ∨ Path es x a) ∧ (y = b ∨ Path es b y) := by
  induction h with
  | single hxy =>
    rcases mem_cons.mp hxy with he | he
    · cases he
      exact .inr ⟨.inl rfl, .inl rfl⟩
    · exact .inl (.single he)
  | tail _ hyz ih =>
    rcases mem_cons.mp hyz with he | he
    · cases he
      rcases ih with ih | ⟨hxa, _⟩
      · exact .inr ⟨.inr ih, .inl rfl⟩
      · exact .inr ⟨hxa, .inl rfl⟩
    · rcases ih with ih | ⟨hxa, hby⟩
      · exact .inl (.tail ih he)
      · refine .inr ⟨hxa, .inr ?_⟩
        rcases hby with rfl | hby
        · exact .single he
        · exact .tail hby he

theorem Acyclic.cons (h : Acyclic es) (hne : a ≠ b) (hpath : ¬ Path es b a) :
    Acyclic ((a, b) :: es) := by
  intro x hx
  rcases hx.cons with hx | ⟨rfl | hxa, rfl | hbx⟩
  · exact h x hx
  · exact hne rfl
  · exact hpath hbx
  · exact hpath hxa
  · exact hpath (hbx.trans hxa)

/-- The edges that do not lead to `p`. -/
def cut [DecidableEq α] (p : α) (es : List (α × α)) : List (α × α) := es.filter fun e => e.2 ≠ p

theorem mem_cut [DecidableEq α] {p : α} : (x, y) ∈ cut p es ↔ (x, y) ∈ es ∧ y ≠ p := by
  rw [cut, mem_filter, decide_eq_true_iff]

theorem cut_subset [DecidableEq α] (p : α) (es : List (α × α)) : cut p es ⊆ es :=
  fun _ he => (mem_filter.mp he).1

theorem Path.cut [DecidableEq α] {p : α} (h : Path es x y) (hsink : ∀ z, (p, z) ∉ es) :
    y = p ∨ Path (cut p es) x y := by
  induction h with
  | @single y hxy =>
    by_cases hy : y = p
    · exact .inl hy
    · exact .inr (.single (mem_cut.mpr ⟨hxy, hy⟩))
  | @tail y z _ hyz ih =>
    rcases ih with rfl | ih
    · exact absurd hyz (hsink z)
    · by_cases hz : z = p
      · exact .inl hz
      · exact .inr (.tail ih (mem_cut.mpr ⟨hyz, hz⟩))

open Classical in
/-- The number of edges that lead to a vertex that can be reached. -/
noncomputable def height (es : List (α × α)) (x : α) : Nat :=
  (es.filter fun e => decide (Path es x e.2)).length

theorem height_lt (h : Acyclic es) (hxy : (x, y) ∈ es) : height es y < height es x := by
  classical
  have hsub : Sublist (es.filter fun e => decide (Path es y e.2))
      (es.filter fun e => decide (Path es x e.2)) := by
    refine monotone_filter_right es fun e he => ?_
    rw [decide_eq_true_iff] at he ⊢
    exact .head hxy he
  refine Nat.lt_of_le_of_ne hsub.length_le fun heq => ?_
  have hmem : (x, y) ∈ es.filter fun e => decide (Path es x e.2) :=
    mem_filter.mpr ⟨hxy, decide_eq_true (.single hxy)⟩
  rw [← hsub.eq_of_length heq, mem_filter, decide_eq_true_iff] at hmem
  exact h y hmem.2

end Firebird.Lib.Dag
