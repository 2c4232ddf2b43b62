import Mathlib.Data.List.Basic

/-!
# Cursors

A cursor writes letters into a buffer, one behind the other. The buffer does not grow: a letter
behind its end is refused.
-/
namespace Firebird.Lib

open List

structure Cursor (α : Type*) where
  cells : List α
  place : Nat
  deriving DecidableEq

namespace Cursor

variable {α : Type*} {as : List α}

def put (c : Cursor α) (a : α) : Option (Cursor α) :=
  if c.place < c.cells.length then some ⟨c.cells.set c.place a, c.place + 1⟩ else none

def puts (c : Cursor α) : List α → Option (Cursor α)
  | [] => some c
  | a :: as => (c.put a).bind fun c' => c'.puts as

@[simp]
theorem puts_nil (c : Cursor α) : c.puts [] = some c := rfl

theorem puts_append (c : Cursor α) (as bs : List α) :
    c.puts (as ++ bs) = (c.puts as).bind fun c' => c'.puts bs := by
  induction as generalizing c with
  | nil => rfl
  | cons a as ih =>
    rw [cons_append, puts, puts, Option.bind_assoc]
    congr 1
    funext c'
    exact ih c'

theorem puts_singleton (c : Cursor α) (a : α) : c.puts [a] = c.put a := by
  rw [puts]
  cases c.put a <;> rfl

theorem puts_eq_some {c : Cursor α} (h : c.place + as.length ≤ c.cells.length) :
    c.puts as = some ⟨c.cells.take c.place ++ as ++ c.cells.drop (c.place + as.length),
      c.place + as.length⟩ := by
  induction as generalizing c with
  | nil => simp
  | cons a as ih =>
    rw [length_cons] at h
    have hlt : c.place < c.cells.length := by omega
    have htake : (c.cells.set c.place a).take (c.place + 1) = c.cells.take c.place ++ [a] := by
      rw [set_eq_take_append_cons_drop, if_pos hlt, take_append]
      simp [Nat.min_eq_left (Nat.le_of_lt hlt), take_take]
    have hdrop : (c.cells.set c.place a).drop (c.place + 1 + as.length) =
        c.cells.drop (c.place + (as.length + 1)) := by
      rw [drop_set_of_lt (by omega)]
      congr 1
      omega
    rw [puts, put, if_pos hlt, Option.bind_some, ih (by dsimp only; rw [length_set]; omega)]
    rw [htake, hdrop, length_cons, append_assoc (c.cells.take c.place) [a] as,
      singleton_append, Nat.add_assoc, Nat.add_comm 1]

theorem puts_eq_none {c : Cursor α} (hne : as ≠ []) (h : c.cells.length < c.place + as.length) :
    c.puts as = none := by
  induction as generalizing c with
  | nil => exact absurd rfl hne
  | cons a as ih =>
    rw [puts, put]
    split_ifs with hlt
    · rw [Option.bind_some]
      rw [length_cons] at h
      refine ih ?_ (by rw [length_set]; dsimp only; omega)
      rintro rfl
      rw [length_nil] at h
      omega
    · rfl

end Cursor

end Firebird.Lib
