import Firebird.Machine
import Mathlib.Tactic.Linarith
import Mathlib.Tactic.Lift

/-!
# Record numbers

The number of a record is a count of lines over the data pages of its relation. It is cut into a
line, a slot and the sequence of a pointer page by `decompose`, put together by `compose`, and
packed into 40 bits for blob ids and `RDB$DB_KEY`.
-/
namespace Firebird.Jrd.RecordNumber

/-- Conversion to `SSHORT`. -/
def sshort (n : Int) : Int := n.bmod (2 ^ 16)

theorem sshort_of_lt {n : Int} (lo : -2 ^ 15 ≤ n) (hi : n < 2 ^ 15) : sshort n = n := by
  unfold sshort
  exact Int.bmod_eq_of_le (by omega) (by omega)

structure Address where
  line : Int
  slot : Int
  ppSequence : Nat

/-- The number fits 40 bits and its parts fit their types; `value` is an `SINT64`. -/
def checkNumber (recordsPerPage dataPagesPerPointerPage : Nat) (value : Int) : Bool :=
  value < 0x10000000000 && value < 65535 * recordsPerPage * dataPagesPerPointerPage

def decompose (recordsPerPage dataPagesPerPointerPage : Nat) (value : Int) : Address :=
  let sequence := (ulong (value.tdiv recordsPerPage)).toNat
  { line := sshort (value.tmod recordsPerPage)
    slot := sshort (sequence % dataPagesPerPointerPage : Nat)
    ppSequence := ushort (sequence / dataPagesPerPointerPage) }

/-- The products of three 16-bit numbers cannot leave `SINT64`. -/
def compose (recordsPerPage dataPagesPerPointerPage : Nat) (address : Address) : Int :=
  (address.ppSequence * dataPagesPerPointerPage + address.slot) * recordsPerPage + address.line

/-- The layout shared by `RDB$DB_KEY` and blob ids. -/
structure Packed where
  bidRelationId : UInt16
  bidReservedForRelation : UInt8
  bidNumberUp : UInt8
  bidNumber : UInt32

/-- `value >> 32` keeps the sign, and its low byte is stored. -/
def Packed.bidEncode (packed : Packed) (value : Int) : Packed :=
  { packed with bidNumber := .ofInt value, bidNumberUp := .ofInt (value / 2 ^ 32) }

def Packed.bidDecode (packed : Packed) : Int :=
  packed.bidNumber.toNat + packed.bidNumberUp.toNat * 2 ^ 32

section

variable {recordsPerPage dataPagesPerPointerPage number : Nat}

theorem parts_lt (hdppp : dataPagesPerPointerPage ≤ 32767)
    (hcheck : checkNumber recordsPerPage dataPagesPerPointerPage number = true) :
    number / recordsPerPage < 2 ^ 32 ∧
      number / recordsPerPage / dataPagesPerPointerPage < 65536 := by
  have hbound : number < recordsPerPage * (65535 * dataPagesPerPointerPage) := by
    have hlt : number < 65535 * recordsPerPage * dataPagesPerPointerPage := by
      grind [checkNumber]
    linarith
  have hseq : number / recordsPerPage < 65535 * dataPagesPerPointerPage :=
    Nat.div_lt_of_lt_mul hbound
  have hpp := Nat.div_lt_of_lt_mul (Nat.mul_comm _ _ ▸ hseq)
  omega

theorem decompose_eq (hrpp : 0 < recordsPerPage ∧ recordsPerPage ≤ 32767)
    (hdppp : 0 < dataPagesPerPointerPage ∧ dataPagesPerPointerPage ≤ 32767)
    (hcheck : checkNumber recordsPerPage dataPagesPerPointerPage number = true) :
    decompose recordsPerPage dataPagesPerPointerPage number =
      ⟨(number % recordsPerPage : Nat), (number / recordsPerPage % dataPagesPerPointerPage : Nat),
        number / recordsPerPage / dataPagesPerPointerPage⟩ := by
  obtain ⟨hseq, hpp⟩ := parts_lt hdppp.2 hcheck
  have hline := Nat.mod_lt number hrpp.1
  have hslot := Nat.mod_lt (number / recordsPerPage) hdppp.1
  have hulong :
      (ulong ((number / recordsPerPage : Nat) : Int)).toNat = number / recordsPerPage := by
    rw [ulong_of_lt (by positivity) (by exact_mod_cast hseq)]
    rfl
  simp only [decompose, ← Int.ofNat_tdiv, ← Int.ofNat_tmod, hulong, ushort_of_lt hpp]
  rw [sshort_of_lt (by omega) (by omega), sshort_of_lt (by omega) (by omega)]

theorem compose_parts : compose recordsPerPage dataPagesPerPointerPage
    ⟨(number % recordsPerPage : Nat), (number / recordsPerPage % dataPagesPerPointerPage : Nat),
      number / recordsPerPage / dataPagesPerPointerPage⟩ = number := by
  show ((_ : Nat) * (_ : Nat) + (_ : Nat) : Int) * _ + (_ : Nat) = _
  norm_cast
  rw [Nat.div_add_mod', Nat.div_add_mod']

end

theorem bidDecode_bidEncode {value : Int} (lo : 0 ≤ value) (hi : value < 0x10000000000)
    (packed : Packed) : (packed.bidEncode value).bidDecode = value := by
  have hlow : (UInt32.ofInt value).toNat = value % 2 ^ 32 := by
    simp [UInt32.ofInt]
    omega
  have hup : (UInt8.ofInt (value / 2 ^ 32)).toNat = value / 2 ^ 32 := by
    simp [UInt8.ofInt]
    omega
  unfold Packed.bidDecode Packed.bidEncode
  grind

/-- A number that `checkNumber` accepts has a line, a slot and a pointer page of its own, which
give it back, as do the bytes of a blob id. -/
theorem number_round_trip (recordsPerPage dataPagesPerPointerPage : Nat)
    (hrpp : 1 ≤ recordsPerPage ∧ recordsPerPage ≤ 32767)
    (hdppp : 1 ≤ dataPagesPerPointerPage ∧ dataPagesPerPointerPage ≤ 32767) (value : Int)
    (hvalue : 0 ≤ value)
    (hcheck : checkNumber recordsPerPage dataPagesPerPointerPage value = true) :
    let address := decompose recordsPerPage dataPagesPerPointerPage value
    (0 ≤ address.line ∧ address.line < recordsPerPage) ∧
    (0 ≤ address.slot ∧ address.slot < dataPagesPerPointerPage) ∧
    address.ppSequence = value / recordsPerPage / dataPagesPerPointerPage ∧
    compose recordsPerPage dataPagesPerPointerPage address = value ∧
    (∀ other : Int, 0 ≤ other →
      checkNumber recordsPerPage dataPagesPerPointerPage other = true →
      decompose recordsPerPage dataPagesPerPointerPage other = address → other = value) ∧
    ∀ packed : Packed, (packed.bidEncode value).bidDecode = value := by
  lift value to Nat using hvalue
  have heq := decompose_eq hrpp hdppp hcheck
  have hback := (congrArg (compose _ _) heq).trans compose_parts
  have hline := Nat.mod_lt value hrpp.1
  have hslot := Nat.mod_lt (value / recordsPerPage) hdppp.1
  refine ⟨?_, ?_, ?_, hback, fun other hother hcheck' heq' => ?_, fun packed => ?_⟩
  · rw [heq]
    exact ⟨Int.natCast_nonneg _, Int.ofNat_lt.mpr hline⟩
  · rw [heq]
    exact ⟨Int.natCast_nonneg _, Int.ofNat_lt.mpr hslot⟩
  · rw [heq]
    rfl
  · lift other to Nat using hother
    have hback' := (congrArg (compose _ _) (decompose_eq hrpp hdppp hcheck')).trans compose_parts
    rw [← hback', heq', hback]
  · refine bidDecode_bidEncode (by omega) ?_ packed
    grind [checkNumber]

theorem number_round_trip_large :
    let address := decompose 400 2000 50000000000
    (0 ≤ address.line ∧ address.line < 400) ∧ (0 ≤ address.slot ∧ address.slot < 2000) ∧
    address.ppSequence = 62500 ∧ compose 400 2000 address = 50000000000 :=
  have h := number_round_trip 400 2000 (by decide) (by decide) 50000000000 (by decide) (by decide)
  ⟨h.1, h.2.1, by exact_mod_cast h.2.2.1, h.2.2.2.1⟩

end Firebird.Jrd.RecordNumber
