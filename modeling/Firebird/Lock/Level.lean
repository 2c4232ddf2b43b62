import Mathlib.Data.Fintype.Basic
import Mathlib.Tactic.Ring

/-!
# Lock levels

The seven levels of a lock request and the compatibility matrix. The levels are compared by
their numbers, although compatibility is not monotone in them: `PR` lies below `SW`, and the two
exclude each other.
-/
namespace Firebird.Lock

/-- `LCK_none` … `LCK_EX`. -/
inductive Level where
  | none | null | sr | pr | sw | pw | ex
  deriving DecidableEq

namespace Level

instance : Fintype Level where
  elems := {none, null, sr, pr, sw, pw, ex}
  complete a := by cases a <;> decide

def rank : Level → Nat
  | none => 0
  | null => 1
  | sr => 2
  | pr => 3
  | sw => 4
  | pw => 5
  | ex => 6

/-- The level one below (`--state`); nothing is below `LCK_none`. -/
def pred : Level → Level
  | none | null => none
  | sr => null
  | pr => sr
  | sw => pr
  | pw => sw
  | ex => pw

/-- The macro `MAX` on level numbers. -/
def max (a b : Level) : Level := if a.rank > b.rank then a else b

end Level

/-- The table `compatibility`: the rows and columns in the order of the levels. -/
def compatibility : Level → List Bool
  | .none => [true, true, true, true, true, true, true]
  | .null => [true, true, true, true, true, true, true]
  | .sr => [true, true, true, true, true, true, false]
  | .pr => [true, true, true, true, false, false, false]
  | .sw => [true, true, true, false, true, false, false]
  | .pw => [true, true, true, false, false, false, false]
  | .ex => [true, true, false, false, false, false, false]

def compatible (st1 st2 : Level) : Bool := (compatibility st1).getD st2.rank false

@[simp] theorem compatible_none_right (a : Level) : compatible a .none = true := by
  cases a <;> rfl

@[simp] theorem compatible_none_left (a : Level) : compatible .none a = true := by
  cases a <;> rfl

theorem compatible_comm (a b : Level) : compatible a b = compatible b a := by
  revert a b; decide

theorem Level.eq_of_rank_eq {a b : Level} (h : a.rank = b.rank) : a = b := by
  revert h
  revert a b; decide

theorem Level.rank_eq_zero {a : Level} (h : a.rank ≤ 0) : a = .none := by
  revert h
  revert a; decide

theorem compatible_of_compatible_top {x a top : Level} (hle : a.rank ≤ top.rank)
    (hcomp : compatible a top = true) (hx : compatible x top = true) :
    compatible x a = true := by
  revert hle hcomp hx
  revert x a top; decide

end Firebird.Lock
