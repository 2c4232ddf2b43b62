import Mathlib.Data.List.Basic
import Mathlib.Tactic.Ring

/-!
# Numbers from strings

The functions of `cvt.cpp` that read a decimal literal. A string is the list of its bytes, and a
function that posts an error does not return.
-/
namespace Firebird.Jrd.Cvt

inductive Error
  | arithExcept
  | convertError (string : List UInt8)
  | badblk
  deriving DecidableEq

inductive Dtype
  | long
  | int64
  | quad
  deriving DecidableEq

def sshort (x : Int) : Int := (x + 2 ^ 15) % 2 ^ 16 - 2 ^ 15

def slong (x : Int) : Int := (x + 2 ^ 31) % 2 ^ 32 - 2 ^ 31

def sint64 (x : Int) : Int := (x + 2 ^ 63) % 2 ^ 64 - 2 ^ 63

def minSlong : Int := -2147483648

def maxSlong : Int := 2147483647

/-- `LONG_MIN`, where a `long` has 64 bits. -/
def longMin : Int := -2 ^ 63

def minSint64 : Int := -9223372036854775808

def maxSint64 : Int := 9223372036854775807

def shortLimit : Int := 2 ^ 14 / 5

def numericLimit : Int := 2 ^ 62 / 5

def digit (c : UInt8) : Bool := 48 ≤ c ∧ c ≤ 57

/-- `*p - '0'` -/
def digitValue (c : UInt8) : Int := c.toNat - 48

def blank : UInt8 := 32

def plus : UInt8 := 43

def minus : UInt8 := 45

def point : UInt8 := 46

def upperE : UInt8 := 69

def lowerE : UInt8 := 101

structure Scan where
  value : Int
  scale : Int
  sign : Int
  digitSeen : Bool
  fraction : Bool

def Scan.start : Scan := ⟨0, 0, 0, false, false⟩

def Scan.signless (s : Scan) : Bool := !s.digitSeen && s.sign = 0 && !s.fraction

def Scan.overflows (s : Scan) (limit : Int) (c : UInt8) : Bool :=
  s.value ≥ limit && (s.value > limit || (c > 56 && s.sign = -1) || (c > 55 && s.sign ≠ -1))

/-- `value = value * 10 + *p - '0'`, with the scale if it is a digit of the fraction. -/
def Scan.push (s : Scan) (c : UInt8) : Scan :=
  { s with
    value := sint64 (s.value * 10 + digitValue c)
    scale := if s.fraction then sshort (s.scale - 1) else s.scale
    digitSeen := true }

def lowerLimit : Dtype → Int
  | .long => minSlong
  | _ => minSint64

def upperLimit : Dtype → Int
  | .long => maxSlong
  | _ => maxSint64

def limitBy10 (dtype : Dtype) : Int := upperLimit dtype / 10

def skipSpaces (string cs : List UInt8) : Except Error Unit :=
  if cs.all (· = blank) then .ok () else .error (.convertError string)

def mantissa (string : List UInt8) (dtype : Dtype) :
    List UInt8 → Scan → Except Error (Scan × List UInt8)
  | [], s => .ok (s, [])
  | c :: cs, s =>
    if digit c then
      if s.overflows (limitBy10 dtype) c then .error .arithExcept
      else mantissa string dtype cs (s.push c)
    else if c = point then
      if s.fraction then .error (.convertError string)
      else mantissa string dtype cs { s with fraction := true }
    else if c = minus ∧ s.signless then mantissa string dtype cs { s with sign := -1 }
    else if c = plus ∧ s.signless then mantissa string dtype cs { s with sign := 1 }
    else if c = lowerE ∨ c = upperE then .ok (s, c :: cs)
    else if c = blank then do
      skipSpaces string cs
      return (s, [])
    else .error (.convertError string)

structure ExpScan where
  exp : Int
  sign : Int
  digitSeen : Bool

def exponent (string : List UInt8) : List UInt8 → ExpScan → Except Error ExpScan
  | [], s => .ok s
  | c :: cs, s =>
    if digit c then
      let exp := sshort (s.exp * 10 + digitValue c)
      if exp ≥ shortLimit then .error .arithExcept
      else exponent string cs { s with exp := exp, digitSeen := true }
    else if c = minus ∧ !s.digitSeen ∧ s.sign = 0 then exponent string cs { s with sign := -1 }
    else if c = plus ∧ !s.digitSeen ∧ s.sign = 0 then exponent string cs { s with sign := 1 }
    else if c = blank then do
      skipSpaces string cs
      return s
    else .error (.convertError string)

def applyExponent (string : List UInt8) (scale : Int) : List UInt8 → Except Error Int
  | [] => .ok scale
  | _ :: cs => do
    let s ← exponent string cs ⟨0, 0, false⟩
    if s.digitSeen then
      return sshort (if s.sign = -1 then scale - s.exp else scale + s.exp)
    else .error (.convertError string)

def signedValue (dtype : Dtype) (s : Scan) : Int :=
  if s.sign = -1 ∧ s.value ≠ lowerLimit dtype then sint64 (-s.value) else s.value

/-- What is stored in `return_value`. -/
def returnValue (dtype : Dtype) (value : Int) : Int := if dtype = .long then slong value else value

/-- `decompose`: the mantissa and the scale. -/
def decompose (string : List UInt8) (dtype : Dtype) : Except Error (Int × Int) :=
  if dtype = .quad then .error .badblk
  else do
    let (s, rest) ← mantissa string dtype (string.dropWhile (· = blank)) .start
    if s.digitSeen then
      let scale ← applyExponent string s.scale rest
      return (returnValue dtype (signedValue dtype s), scale)
    else .error (.convertError string)

/-- The loop of `CVT_get_numeric`, up to an exponent or a digit that would go over the limit. -/
def numeric (string : List UInt8) : List UInt8 → Scan → Except Error (Scan × List UInt8)
  | [], s => .ok (s, [])
  | c :: cs, s =>
    if digit c then
      if s.overflows numericLimit c then .ok ({ s with digitSeen := true }, c :: cs)
      else numeric string cs (s.push c)
    else if c = point then
      if s.fraction then .error (.convertError string)
      else numeric string cs { s with fraction := true }
    else if c = minus ∧ s.signless then numeric string cs { s with sign := -1 }
    else if c = plus ∧ s.signless then numeric string cs { s with sign := 1 }
    else if c = lowerE ∨ c = upperE then .ok (s, c :: cs)
    else if c ≠ blank then .error (.convertError string)
    else numeric string cs s

/-- What `CVT_get_numeric` stores, with the type that it returns. -/
inductive Numeric (δ : Type)
  | long (value scale : Int)
  | int64 (value scale : Int)
  | double (value : δ)
  deriving DecidableEq

/-- `CVT_get_numeric`; the conversion to a double is a parameter. -/
def getNumeric {δ : Type} (getDouble : List UInt8 → Except Error δ) (string : List UInt8) :
    Except Error (Numeric δ) := do
  let (s, rest) ← numeric string string .start
  if s.digitSeen then
    if rest ≠ [] ∨ (s.value < 0 ∧ s.sign ≠ -1) then
      let value ← getDouble string
      return .double value
    else if s.value ≤ maxSlong ∧ s.value ≥ 0 then
      return .long (slong (if s.sign = -1 then -s.value else s.value)) s.scale
    else if s.sign = -1 ∧ sint64 (-s.value) = minSlong then
      return .long (slong longMin) s.scale
    else return .int64 (if s.sign = -1 then sint64 (-s.value) else s.value) s.scale
  else .error (.convertError string)

end Firebird.Jrd.Cvt
