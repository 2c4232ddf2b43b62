import Mathlib.Tactic.Ring

/-!
# Deterministic machines

A machine goes from state to state until it halts with a result.
-/
namespace Firebird.Lib.Machine

variable {σ ρ : Type*} {step : σ → σ ⊕ ρ} {s s' s'' : σ} {r r' : ρ} {n m : Nat}

def run (step : σ → σ ⊕ ρ) : Nat → σ → Option ρ
  | 0, _ => none
  | n + 1, s =>
    match step s with
    | .inl s' => run step n s'
    | .inr r => some r

/-- The machine goes from a state to another one in so many steps. -/
inductive Steps (step : σ → σ ⊕ ρ) : Nat → σ → σ → Prop
  | zero (s : σ) : Steps step 0 s s
  | succ {n : Nat} {s s' s'' : σ} : step s = .inl s' → Steps step n s' s'' → Steps step (n + 1) s
    s''

def Halts (step : σ → σ ⊕ ρ) (s : σ) (r : ρ) : Prop := ∃ n, run step n s = some r

theorem Steps.one (h : step s = .inl s') : Steps step 1 s s' := .succ h (.zero s')

theorem Steps.trans (h : Steps step n s s') (h' : Steps step m s' s'') :
    Steps step (n + m) s s'' := by
  induction h with
  | zero s => rwa [Nat.zero_add]
  | @succ n s t u hst _ ih =>
    rw [Nat.add_right_comm]
    exact .succ hst (ih h')

theorem Steps.run_add (h : Steps step n s s') (m : Nat) : run step (n + m) s = run step m s' := by
  induction h with
  | zero s => rw [Nat.zero_add]
  | @succ n s t u hst _ ih =>
    rw [Nat.add_right_comm, run, hst]
    exact ih

theorem Steps.run_eq_none (h : Steps step n s s') : run step n s = none := by
  have := h.run_add 0
  rwa [Nat.add_zero] at this

theorem run_mono (h : run step n s = some r) (m : Nat) : run step (n + m) s = some r := by
  induction n generalizing s with
  | zero => cases h
  | succ n ih =>
    rw [Nat.add_right_comm]
    unfold run at h ⊢
    cases hs : step s with
    | inl s' =>
      rw [hs] at h
      exact ih h
    | inr r' =>
      rw [hs] at h
      exact h

theorem Halts.unique (h : Halts step s r) (h' : Halts step s r') : r = r' := by
  obtain ⟨n, hn⟩ := h
  obtain ⟨m, hm⟩ := h'
  have hn' := run_mono hn m
  have hm' := run_mono hm n
  rw [Nat.add_comm] at hm'
  exact Option.some.inj (hn'.symm.trans hm')

theorem halts_of_step (h : step s = .inr r) : Halts step s r := ⟨1, by rw [run, h]⟩

theorem Steps.halts (h : Steps step n s s') (h' : Halts step s' r) : Halts step s r := by
  obtain ⟨m, hm⟩ := h'
  exact ⟨n + m, by rw [h.run_add, hm]⟩

end Firebird.Lib.Machine
