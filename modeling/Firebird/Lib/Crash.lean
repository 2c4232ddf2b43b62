import Mathlib.Init

/-!
# Crash triples

A program is a list of atomic stores, each of which may abort. A crash triple says that the
stores run through, which states a crash between two of them can leave behind, and which state
is left at the end.
-/
namespace Firebird.Lib.Crash

variable {σ : Type} {C C' Q Q' : σ → Prop}

/-- Make the stores one after the other; `none` when one of them aborts. -/
def run : List (σ → Option σ) → σ → Option σ
  | [], s => some s
  | st :: sts, s => (st s).bind (run sts)

/-- From `s` the stores never abort, every state a crash can leave satisfies `C`, and the final
state satisfies `Q`. -/
def Triple (C : σ → Prop) : List (σ → Option σ) → σ → (σ → Prop) → Prop
  | [], s, Q => C s ∧ Q s
  | st :: sts, s, Q => C s ∧ ∃ s', st s = some s' ∧ Triple C sts s' Q

variable {sts : List (σ → Option σ)}

theorem Triple.done {s : σ} (h : Triple C sts s Q) :
    ∃ s', run sts s = some s' ∧ Q s' := by
  induction sts generalizing s with
  | nil => exact ⟨s, rfl, h.2⟩
  | cons st sts ih =>
    obtain ⟨-, t, ht, hrest⟩ := h
    obtain ⟨s', hs', hq⟩ := ih hrest
    exact ⟨s', by simp [run, ht, hs'], hq⟩

/-- A crash after any number of stores leaves a state that satisfies `C`. -/
theorem Triple.take {s : σ} (h : Triple C sts s Q) (k : Nat) :
    ∃ s', run (sts.take k) s = some s' ∧ C s' := by
  induction sts generalizing s k with
  | nil => exact ⟨s, by simp [run], h.1⟩
  | cons st sts ih =>
    cases k with
    | zero => exact ⟨s, rfl, h.1⟩
    | succ k =>
      obtain ⟨-, t, ht, hrest⟩ := h
      obtain ⟨s', hs', hc⟩ := ih hrest k
      exact ⟨s', by simp [run, ht, hs'], hc⟩

theorem Triple.cons {st : σ → Option σ} {s s' : σ} (hc : C s)
    (hst : st s = some s') (h : Triple C sts s' Q) : Triple C (st :: sts) s Q :=
  ⟨hc, s', hst, h⟩

end Firebird.Lib.Crash
