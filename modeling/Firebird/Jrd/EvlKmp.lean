import Mathlib.Data.List.GetD
import Firebird.Jrd.EvlString

/-!
# The jump tables of the evaluators
-/
namespace Firebird.Jrd.Evl

open Lib Kmp List

variable {α : Type} [DecidableEq α] {x : List α} {kmpNext : List (Option Nat)}

omit [DecidableEq α] in
theorem strong_append {q : Nat} (hq : q < kmpNext.length) (entry : Option Nat) :
    Strong x (kmpNext ++ [entry]) q ↔ Strong x kmpNext q := by
  rw [Strong, Strong, getD_append _ _ _ _ hq]

theorem preKmpLoop_table {before rest : List α} {j : Option Nat} (hx : x = before ++ rest)
    (hrest : rest ≠ []) (hlen : kmpNext.length = before.length + 1)
    (hstrong : ∀ q < kmpNext.length, Strong x kmpNext q)
    (hj : Greatest (fun k => k < before.length ∧ Ends x (x.take before.length) k) j) :
    Table x (preKmpLoop x rest j kmpNext) := by
  induction rest generalizing before j kmpNext with
  | nil => exact absurd rfl hrest
  | cons c rest ih =>
    have hlt : before.length < x.length := by
      rw [hx, length_append, length_cons]
      omega
    have htake : x.take (before.length + 1) = x.take before.length ++ [c] := by
      rw [hx, take_length_add_append, take_left]
      rfl
    -- The longest proper end of the letters up to this one.
    have hfall : Greatest (fun k => k < before.length ∧ Ends x (x.take before.length) k ∧
        x[k]? = some c) (fall x kmpNext c (x.length + 1) j) := by
      refine fall_spec hstrong ?_ ?_ ?_
      · intro k hk
        obtain rfl : j = some k := hk
        exact ⟨by have := hj.1.1; omega, hj.1.1, hj.1.2⟩
      · intro k hk
        cases j with
        | none => exact absurd ⟨hk.1, hk.2.1⟩ (hj k)
        | some j => exact ⟨j, rfl, hj.2 k ⟨hk.1, hk.2.1⟩⟩
      · intro k hk
        obtain rfl : j = some k := hk
        have := hj.1.1
        omega
    have hnext := advance_spec (Nat.le_of_lt hlt) hfall
    rw [← htake] at hnext
    cases rest with
    | nil =>
      have hend : x.length = before.length + 1 := by rw [hx]; simp
      rw [preKmpLoop]
      refine ⟨fun q hq => (strong_append (by omega) _).2 (hstrong q (by omega)), ?_⟩
      rw [← hend, take_length] at hnext
      rw [getD_append_right _ _ _ _ (by omega), hend, hlen]
      simpa [hend] using hnext
    | cons d rest =>
      have hx' : x = (before ++ [c]) ++ d :: rest := by rw [hx]; simp
      have hd : x[before.length + 1]? = some d := by rw [hx]; simp
      have hlen' : (kmpNext ++ [if some d = x[advance (fall x kmpNext c (x.length + 1) j)]? then
          kmpNext.getD (advance (fall x kmpNext c (x.length + 1) j)) none
          else some (advance (fall x kmpNext c (x.length + 1) j))]).length =
            (before ++ [c]).length + 1 := by
        simp [hlen]
      refine ih hx' (by simp) hlen' ?_ ?_
      · intro q hq
        rw [hlen', length_append, length_singleton] at hq
        rcases Nat.lt_or_ge q kmpNext.length with hlt' | hge
        · exact (strong_append hlt' _).2 (hstrong q hlt')
        · obtain rfl : q = before.length + 1 := by omega
          have hadv := hnext.1.1
          refine strong_of_longest hnext ((strong_append (by omega) _).2 (hstrong _ (by omega))) ?_
          rw [getD_append_right _ _ _ _ (by omega), hlen, hd, getD_append _ _ _ _ (by omega)]
          simp
      · rw [length_append, length_singleton]
        exact hnext

theorem preKmp_table (hx : x ≠ []) : Table x (preKmp x) := by
  refine preKmpLoop_table (nil_append x).symm hx rfl ?_ ?_
  · intro q hq
    obtain rfl : q = 0 := by simpa using hq
    exact fun k hk => absurd hk.1 (Nat.not_lt_zero k)
  · exact fun k hk => absurd hk.1 (Nat.not_lt_zero k)

end Firebird.Jrd.Evl
