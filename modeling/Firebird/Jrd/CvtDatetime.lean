import Firebird.Common.TimestampRange
import Firebird.Jrd.CvtText

/-!
# Dates and times as text

`datetime_to_text` and `string_to_datetime` of `cvt.cpp`. A string is the list of its bytes. The
clock is a parameter: `now` is the value that `TimeStamp()` has.
-/
namespace Firebird.Jrd.Datetime

open Lib.Decimal Common Cvt

structure Timestamp where
  date : Int
  time : Nat
  deriving DecidableEq

def secondsPrecision : Nat := 10000

/-- `tm` -/
structure Times where
  date : TimeStamp.Tm
  hour : Nat
  min : Nat
  sec : Nat

def decode (ts : Timestamp) : Times :=
  let minutes := ts.time / (secondsPrecision * 60)
  ⟨TimeStamp.decodeDate ts.date, minutes / 60, minutes % 60, ts.time / secondsPrecision % 60⟩

def encode (times : Times) : Timestamp :=
  ⟨TimeStamp.encodeDate times.date,
    ((times.hour * 60 + times.min) * 60 + times.sec) * secondsPrecision⟩

inductive Error
  | conversionError (string : List UInt8)
  | dateRangeExceeded
  | arithExcept
  deriving DecidableEq

/-! ## Characters -/

def bytes (cs : List Char) : List UInt8 := cs.map fun c => UInt8.ofNat c.toNat

def dash : UInt8 := 45

def colon : UInt8 := 58

def slash : UInt8 := 47

def comma : UInt8 := 44

def tab : UInt8 := 9

/-- `*p == ' ' || *p == '\t'` -/
def isBlank (c : UInt8) : Bool := c = blank ∨ c = tab

def upper7 (c : UInt8) : UInt8 := if 97 ≤ c ∧ c ≤ 122 then c - 97 + 65 else c

def letter7 (c : UInt8) : Bool := 65 ≤ c ∧ c ≤ 90

def longMonthsUpper : List (List UInt8) :=
  [bytes ['J', 'A', 'N', 'U', 'A', 'R', 'Y'],
   bytes ['F', 'E', 'B', 'R', 'U', 'A', 'R', 'Y'],
   bytes ['M', 'A', 'R', 'C', 'H'],
   bytes ['A', 'P', 'R', 'I', 'L'],
   bytes ['M', 'A', 'Y'],
   bytes ['J', 'U', 'N', 'E'],
   bytes ['J', 'U', 'L', 'Y'],
   bytes ['A', 'U', 'G', 'U', 'S', 'T'],
   bytes ['S', 'E', 'P', 'T', 'E', 'M', 'B', 'E', 'R'],
   bytes ['O', 'C', 'T', 'O', 'B', 'E', 'R'],
   bytes ['N', 'O', 'V', 'E', 'M', 'B', 'E', 'R'],
   bytes ['D', 'E', 'C', 'E', 'M', 'B', 'E', 'R']]

def nowWord : List UInt8 := bytes ['N', 'O', 'W']

def todayWord : List UInt8 := bytes ['T', 'O', 'D', 'A', 'Y']

def tomorrowWord : List UInt8 := bytes ['T', 'O', 'M', 'O', 'R', 'R', 'O', 'W']

def yesterdayWord : List UInt8 := bytes ['Y', 'E', 'S', 'T', 'E', 'R', 'D', 'A', 'Y']

inductive Value
  | sqlTime (time : Nat)
  | sqlDate (date : Int)
  | timestamp (ts : Timestamp)
  deriving DecidableEq

def Value.ts : Value → Timestamp
  | sqlTime time => ⟨0, time⟩
  | sqlDate date => ⟨date, 0⟩
  | timestamp ts => ts

/-- `%.4d` with a precision. -/
def decimal (precision : Nat) (n : Int) : List UInt8 :=
  let ds := digits n.natAbs
  (if n < 0 then [minus] else []) ++
    (List.replicate (precision - ds.length) 0 ++ ds).map digitByte

/-- `"%4.4d-%2.2d-%2.2d"` -/
def isoDate (times : Times) : List UInt8 :=
  decimal 4 (times.date.year + 1900) ++ dash :: decimal 2 (times.date.mon + 1) ++
    dash :: decimal 2 times.date.mday

/-- `"%d-%.3s-%d"` -/
def oldDate (times : Times) : List UInt8 :=
  decimal 1 times.date.mday ++ dash :: (longMonthsUpper.getD times.date.mon.toNat []).take 3 ++
    dash :: decimal 1 (times.date.year + 1900)

/-- `"%2.2d:%2.2d:%2.2d.%4.4d"`, or with `"%d"` for the hour. -/
def clockText (precision : Nat) (times : Times) (time : Nat) : List UInt8 :=
  decimal precision times.hour ++ colon :: decimal 2 times.min ++ colon :: decimal 2 times.sec ++
    point :: decimal 4 ↑(time % secondsPrecision)

/-- The text in `temp`. -/
def textOf (version4 : Bool) (value : Value) : List UInt8 :=
  let times := decode value.ts
  match value with
  | .sqlTime time => clockText 2 times time
  | .sqlDate _ => isoDate times
  | .timestamp ts =>
    if !version4 then isoDate times ++ blank :: clockText 2 times ts.time
    else oldDate times ++
      if times.hour ≠ 0 ∨ times.min ≠ 0 ∨ times.sec ≠ 0 ∨ ts.time ≠ 0 then
        blank :: clockText 1 times ts.time
      else []

def capacity (dst : Dsc) : Nat :=
  match dst.dtype with
  | .text => dst.length
  | .cstring => dst.length - 1
  | .varying => dst.length - 2

/-- `CVT_move` from a text: the string that the destination holds. -/
def moveText (string : List UInt8) (dst : Dsc) : Except Error (List UInt8) :=
  let length := min string.length (capacity dst)
  let fill := if dst.dtype = .text then dst.length - length else 0
  if (string.drop length).all (· = dst.pad) then
    .ok (string.take length ++ List.replicate fill dst.pad)
  else .error .arithExcept

def datetimeToText (version4 : Bool) (value : Value) (dst : Dsc) : Except Error (List UInt8) :=
  let temp := textOf version4 value
  match value with
  | .timestamp _ => moveText (if version4 then temp.take (capacity dst) else temp) dst
  | _ => moveText temp dst

/-! ## `string_to_datetime` -/

/-- `EXPECT_DATETIME` -/
inductive Expect
  | timestamp
  | sqlDate
  | sqlTime
  deriving DecidableEq

def englishMonth : Int := -1

def Expect.startComponent : Expect → Nat
  | sqlTime => 3
  | _ => 0

def skipBlanks (p : List UInt8) : List UInt8 := p.dropWhile isBlank

/-- The number with its digits counted, both of them `USHORT`. -/
def readDigits : List UInt8 → Nat → Nat → Nat × Nat × List UInt8
  | [], n, precision => (n, precision, [])
  | c :: p, n, precision =>
    if digit c then readDigits p ((n * 10 + (c.toNat - 48)) % 2 ^ 16) ((precision + 1) % 2 ^ 16)
    else (n, precision, c :: p)

/-- Letters for `temp`, while there is room. -/
def readLetters : Nat → List UInt8 → List UInt8 × List UInt8
  | 0, p => ([], p)
  | _ + 1, [] => ([], [])
  | room + 1, c :: p =>
    if letter7 (upper7 c) then
      let (temp, p) := readLetters room p
      (upper7 c :: temp, p)
    else ([], c :: p)

/-- The first month whose name begins with `temp`. -/
def findMonth (temp : List UInt8) : Option Nat := longMonthsUpper.findIdx? (temp.isPrefixOf ·)

structure Scan where
  i : Nat
  p : List UInt8
  components : Nat → Nat
  description : Nat → Int
  haveEnglishMonth : Bool
  dotSeparatorSeen : Bool

def Scan.start (i : Nat) (p : List UInt8) : Scan := ⟨i, p, fun _ => 0, fun _ => 0, false, false⟩

/-- What the characters at `p` are. -/
inductive Token
  | component (n : Nat) (description : Int) (english : Bool)
  | special (temp : List UInt8)

def readToken (string : List UInt8) (s : Scan) : Except Error (Token × List UInt8) :=
  let c := upper7 (s.p.headD 0)
  if digit c then
    let (n, precision, p) := readDigits s.p 0 0
    .ok (.component n precision false, p)
  else if letter7 c && !s.haveEnglishMonth then
    let (temp, p) := readLetters 10 s.p
    if temp.length < 3 then .error (.conversionError string)
    else
      match if s.i < 2 then findMonth temp else none with
      | some k => .ok (.component (k + 1) englishMonth true, p)
      | none => .ok (.special temp, p)
  else .error (.conversionError string)

/-- A magic word. `++p` has gone past the character behind it. -/
def special (string : List UInt8) (expect : Expect) (now : Timestamp) (temp p : List UInt8) :
    Except Error Timestamp :=
  if (p.drop 1).any fun c => !isBlank c && c ≠ 0 then .error (.conversionError string)
  else if temp = nowWord then .ok now
  else if expect = .sqlTime then .error (.conversionError string)
  else if temp = todayWord then .ok ⟨now.date, 0⟩
  else if temp = tomorrowWord then .ok ⟨now.date + 1, 0⟩
  else if temp = yesterdayWord then .ok ⟨now.date - 1, 0⟩
  else .error (.conversionError string)

/-- The characters that the loop takes for separators, but for the period. -/
def isSeparator (c : UInt8) : Bool := c = slash ∨ c = dash ∨ c = comma ∨ c = colon

/-- The components that are left. A magic word ends the whole function. -/
def scanLoop (string : List UInt8) (expect : Expect) (now : Timestamp) :
    Nat → Scan → Except Error (Timestamp ⊕ Scan)
  | 0, s => .ok (.inr s)
  | left + 1, s =>
    match skipBlanks s.p with
    | [] => .ok (.inr { s with p := [] })
    | c :: p =>
      match readToken string { s with p := c :: p } with
      | .error e => .error e
      | .ok (.special temp, p) =>
        match special string expect now temp p with
        | .error e => .error e
        | .ok date => .ok (.inl date)
      | .ok (.component n description english, p) =>
        let s := { s with
          components := Function.update s.components s.i n
          description := Function.update s.description s.i description
          haveEnglishMonth := s.haveEnglishMonth || english }
        match skipBlanks p with
        | [] => .ok (.inr { s with p := [] })
        | c :: p =>
          if isSeparator c then scanLoop string expect now left { s with i := s.i + 1, p := p }
          else if c = point then
            scanLoop string expect now left { s with
              i := s.i + 1
              p := p
              dotSeparatorSeen := s.dotSeparatorSeen || s.i ≤ 1 }
          else scanLoop string expect now left { s with i := s.i + 1, p := c :: p }

/-- `position_year`, `position_month` and `position_day` -/
structure Positions where
  year : Nat
  month : Nat
  day : Nat

def positions (description : Nat → Int) (dotSeparatorSeen : Bool) : Positions :=
  if description 0 ≥ 3 then ⟨0, 1, 2⟩
  else if description 0 = englishMonth then ⟨2, 0, 1⟩
  else if description 1 = englishMonth then ⟨2, 1, 0⟩
  else if dotSeparatorSeen then ⟨2, 1, 0⟩
  else ⟨2, 0, 1⟩

/-- `tm_year`, from the year with the number of its digits and from the current `tm_year`. -/
def resolveYear (current : Int) (year : Nat) (description : Int) : Int :=
  (if description = 0 then current + 1900
    else if description ≤ 2 then
      if (year : Int) < (current - 50).tmod 100 then year + 2000 else year + 1900
    else year) - 1900

def readDate (string : List UInt8) (now : Timestamp) (s : Scan) : Except Error TimeStamp.Tm :=
  let position := positions s.description s.dotSeparatorSeen
  if s.description position.year > 4 ∨ s.description position.month > 2 ∨
      s.description position.month = 0 ∨ s.description position.day > 2 ∨
      s.description position.day ≤ 0 then
    .error (.conversionError string)
  else
    .ok ⟨s.components position.day, s.components position.month - 1,
      resolveYear (decode now).date.year (s.components position.year)
        (s.description position.year), 0, 0⟩

def timeRefused (components : Nat → Nat) (description : Nat → Int) : Bool :=
  components 3 > 23 ∨ components 4 > 59 ∨ components 5 > 59 ∨ description 3 > 2 ∨
    description 3 = 0 ∨ description 4 > 2 ∨ description 4 = 0 ∨ description 5 > 2 ∨
    description 6 > 4

/-- `while (description[6]++ < -ISC_TIME_SECONDS_PRECISION_SCALE) components[6] *= 10;` -/
def fraction (component : Nat) (description : Int) : Nat :=
  (fun n => n * 10 % 2 ^ 16)^[(4 - description).toNat] component

def sameTimes (times times2 : Times) : Bool :=
  times.date.year = times2.date.year ∧ times.date.mon = times2.date.mon ∧
    times.date.mday = times2.date.mday ∧ times.hour = times2.hour ∧ times.min = times2.min ∧
    times.sec = times2.sec

def Scan.times (s : Scan) (date : TimeStamp.Tm) : Times :=
  if s.i > 2 then ⟨date, s.components 3, s.components 4, s.components 5⟩ else ⟨date, 0, 0, 0⟩

/-- The time is looked at, and the value is checked by decoding it. -/
def convert (string : List UInt8) (expect : Expect) (s : Scan) (date : TimeStamp.Tm) :
    Except Error Timestamp :=
  if s.i > 2 ∧ timeRefused s.components s.description then .error (.conversionError string)
  else
    let times := s.times date
    let ts := encode times
    if !TimeStamp.isRangeValid ts.date then .error .dateRangeExceeded
    else if expect ≠ .sqlTime ∧ !sameTimes times (decode ts) then .error (.conversionError string)
    else .ok ⟨ts.date, ts.time + fraction (s.components 6) (s.description 6)⟩

/-- What comes after the loop. The check for trash compares the pointer, so that a null character is
no blank. -/
def finish (string : List UInt8) (expect : Expect) (now : Timestamp) (s : Scan) :
    Except Error Timestamp :=
  if s.i - expect.startComponent < 1 then .error (.conversionError string)
  else if expect = .sqlDate ∧ s.i > 2 then .error (.conversionError string)
  else if s.p.any fun c => !isBlank c then .error (.conversionError string)
  else
    match if expect = .sqlTime then .ok ⟨1, 0, 0, 0, 0⟩ else readDate string now s with
    | .error e => .error e
    | .ok date => convert string expect s date

def stringToDatetime (expect : Expect) (now : Timestamp) (string : List UInt8) :
    Except Error Timestamp :=
  match scanLoop string expect now (7 - expect.startComponent)
      (.start expect.startComponent string) with
  | .error e => .error e
  | .ok (.inl date) => .ok date
  | .ok (.inr s) => finish string expect now s

/-- What `CVT_move` puts into a destination of the type that is expected. -/
def Expect.value (expect : Expect) (date : Timestamp) : Value :=
  match expect with
  | timestamp => .timestamp date
  | sqlDate => .sqlDate date.date
  | sqlTime => .sqlTime date.time

end Firebird.Jrd.Datetime
