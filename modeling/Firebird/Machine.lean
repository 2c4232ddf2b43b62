import Mathlib.Tactic.Ring

/-!
# Machine integers of the source

The C typedefs the modelled functions compute with. Quantities that cannot leave their
type stay in `Nat` or `Int`; the ones that can are cut back by the functions below.
-/
namespace Firebird

/-- `signed char`: a byte of a record image, and a control byte of a packed one. -/
abbrev SCHAR := Int8

/-- Conversion to `unsigned short`. -/
def ushort (n : Nat) : Nat := n % 65536

theorem ushort_of_lt {n : Nat} (h : n < 65536) : ushort n = n := Nat.mod_eq_of_lt h

/-- A count in the range of a signed byte survives the trip through it. -/
theorem toInt_ofInt_schar {i : Int} (lo : -128 ≤ i) (hi : i ≤ 127) :
    (Int8.ofInt i).toInt = i := Int8.toInt_ofInt_of_le (by omega) (by omega)

/-- Conversion to `SLONG`. -/
def slong (n : Int) : Int := n.bmod (2 ^ 32)

theorem slong_of_lt {n : Int} (lo : -2 ^ 31 ≤ n) (hi : n < 2 ^ 31) : slong n = n := by
  unfold slong
  exact Int.bmod_eq_of_le (by omega) (by omega)

/-- Conversion to `ULONG`. -/
def ulong (n : Int) : Int := n % 2 ^ 32

theorem ulong_of_lt {n : Int} (lo : 0 ≤ n) (hi : n < 2 ^ 32) : ulong n = n :=
  Int.emod_eq_of_lt lo hi

end Firebird
