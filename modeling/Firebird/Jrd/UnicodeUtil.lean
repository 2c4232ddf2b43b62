import Mathlib.Data.Nat.Bitwise

/-!
# Conversion between Unicode encoding forms

The four conversions of `unicode_util.cpp`, with the macros of ICU that they use. A string is the
list of its units, and a length in bytes is the one of the destination only.
`utf8_nextCharSafeBody` is a parameter: from the first byte of a character and the bytes behind it,
it gets the character, or a negative number, and how many bytes to go on.
-/
namespace Firebird.Jrd.UnicodeUtil

def isSurrogate (c : Nat) : Bool := c &&& 0xfffff800 = 0xd800

def isSurrogateFirst (c : Nat) : Bool := c &&& 0x400 = 0

def isLead (c : Nat) : Bool := c &&& 0xfffffc00 = 0xd800

def isTrail (c : Nat) : Bool := c &&& 0xfffffc00 = 0xdc00

def getPairValue (first second : Nat) : Nat :=
  (first <<< 10) + second - ((0xd800 <<< 10) + 0xdc00 - 0x10000)

def lead (c : Nat) : UInt16 := UInt16.ofNat ((c >>> 10) + 0xd7c0)

def trail (c : Nat) : UInt16 := UInt16.ofNat ((c &&& 0x3ff) ||| 0xdc00)

def u8Length (c : Nat) : Nat :=
  if c ≤ 0x7f then 1
  else if c ≤ 0x7ff then 2
  else if c ≤ 0xd7ff then 3
  else if c ≤ 0xdfff ∨ c > 0x10ffff then 0
  else if c ≤ 0xffff then 3
  else 4

def u8AppendUnsafe (c : Nat) : List UInt8 :=
  if c ≤ 0x7f then [UInt8.ofNat c]
  else
    (if c ≤ 0x7ff then [UInt8.ofNat ((c >>> 6) ||| 0xc0)]
    else
      (if c ≤ 0xffff then [UInt8.ofNat ((c >>> 12) ||| 0xe0)]
      else [UInt8.ofNat ((c >>> 18) ||| 0xf0), UInt8.ofNat (((c >>> 12) &&& 0x3f) ||| 0x80)]) ++
        [UInt8.ofNat (((c >>> 6) &&& 0x3f) ||| 0x80)]) ++
      [UInt8.ofNat ((c &&& 0x3f) ||| 0x80)]

def csTruncationError : Nat := 1

def csBadInput : Nat := 3

/-- The state of a conversion: how many units of the source have been read, the units that count in
the destination, how many units have been stored at all, and the results. -/
structure Conv (β : Type) where
  i : Nat
  dst : List β
  stored : Nat
  errCode : Nat
  errPosition : Option Nat

def Conv.start (β : Type) : Conv β := ⟨0, [], 0, 0, none⟩

def Conv.put {β : Type} (s : Conv β) (n : Nat) (units : List β) : Conv β :=
  { s with i := s.i + n, dst := s.dst ++ units, stored := s.stored + units.length }

def utf16ToUtf8Loop (dstLen : Nat) : List UInt16 → Conv UInt8 → Conv UInt8
  | [], s => s
  | c :: src, s =>
    if dstLen - s.dst.length = 0 then
      { s with errCode := csTruncationError, errPosition := some (s.i * 2) }
    else if c.toNat ≤ 0x7f then utf16ToUtf8Loop dstLen src (s.put 1 [UInt8.ofNat c.toNat])
    else
      let s := { s with errPosition := some (s.i * 2) }
      if isSurrogate c.toNat then
        match src with
        | [] => { s with errCode := csBadInput }
        | c2 :: src =>
          if isSurrogateFirst c.toNat && isTrail c2.toNat then
            let c := getPairValue c.toNat c2.toNat
            if u8Length c ≤ dstLen - s.dst.length then
              utf16ToUtf8Loop dstLen src (s.put 2 (u8AppendUnsafe c))
            else { s with errCode := csTruncationError }
          else { s with errCode := csBadInput }
      else if u8Length c.toNat ≤ dstLen - s.dst.length then
        utf16ToUtf8Loop dstLen src (s.put 1 (u8AppendUnsafe c.toNat))
      else { s with errCode := csTruncationError }

/-- `utf16ToUtf8`, if there is a destination. -/
def utf16ToUtf8 (src : List UInt16) (dstLen : Nat) : Conv UInt8 :=
  utf16ToUtf8Loop dstLen src (.start UInt8)

def utf8ToUtf16Loop (nextChar : UInt8 → List UInt8 → Int × Nat) (dstLen : Nat) (src : List UInt8)
    (s : Conv UInt16) : Conv UInt16 :=
  match src with
  | [] => s
  | c :: src =>
    if dstLen / 2 - s.dst.length = 0 then
      { s with errCode := csTruncationError, errPosition := some s.i }
    else if c.toNat ≤ 0x7f then
      utf8ToUtf16Loop nextChar dstLen src (s.put 1 [UInt16.ofNat c.toNat])
    else
      let s := { s with errPosition := some s.i }
      let (c, n) := nextChar c src
      if c < 0 then { s with errCode := csBadInput }
      else if c ≤ 0xffff then
        utf8ToUtf16Loop nextChar dstLen (src.drop n) (s.put (n + 1) [UInt16.ofNat c.toNat])
      else if dstLen / 2 - s.dst.length > 1 then
        utf8ToUtf16Loop nextChar dstLen (src.drop n) (s.put (n + 1) [lead c.toNat, trail c.toNat])
      else { s with errCode := csTruncationError }
  termination_by src.length
  decreasing_by all_goals simp only [List.length_cons, List.length_drop]; omega

/-- `utf8ToUtf16`, if there is a destination. -/
def utf8ToUtf16 (nextChar : UInt8 → List UInt8 → Int × Nat) (src : List UInt8) (dstLen : Nat) :
    Conv UInt16 := utf8ToUtf16Loop nextChar dstLen src (.start UInt16)

def finish {α β : Type} (src : List α) (srcSize : Nat) (s : Conv β) : Conv β :=
  { s with
    errCode := if s.errCode = 0 ∧ s.i < src.length then csTruncationError else s.errCode
    errPosition := some (s.i * srcSize) }

def utf16ToUtf32Loop (dstLen : Nat) : List UInt16 → Conv UInt32 → Conv UInt32
  | [], s => s
  | ch :: src, s =>
    if s.dst.length < dstLen / 4 then
      if isLead ch.toNat then
        match src with
        | [] => { s with errCode := csBadInput }
        | ch2 :: src =>
          if isTrail ch2.toNat then
            utf16ToUtf32Loop dstLen src
              (s.put 2 [UInt32.ofNat (getPairValue ch.toNat ch2.toNat)])
          else { s with errCode := csBadInput }
      else utf16ToUtf32Loop dstLen src (s.put 1 [UInt32.ofNat ch.toNat])
    else s

/-- `utf16ToUtf32`, if there is a destination. -/
def utf16ToUtf32 (src : List UInt16) (dstLen : Nat) : Conv UInt32 :=
  finish src 2 (utf16ToUtf32Loop dstLen src (.start UInt32))

/-- The loop of `utf32ToUtf16`. A lead surrogate whose trail does not fit has been stored. -/
def utf32ToUtf16Loop (dstLen : Nat) : List UInt32 → Conv UInt16 → Conv UInt16
  | [], s => s
  | ch :: src, s =>
    if s.dst.length < dstLen / 2 then
      if ch.toNat ≤ 0xffff then utf32ToUtf16Loop dstLen src (s.put 1 [UInt16.ofNat ch.toNat])
      else if ch.toNat ≤ 0x10ffff then
        if s.dst.length + 1 < dstLen / 2 then
          utf32ToUtf16Loop dstLen src (s.put 1 [lead ch.toNat, trail ch.toNat])
        else { s with i := s.i + 1, stored := s.stored + 1, errCode := csTruncationError }
      else { s with errCode := csBadInput }
    else s

/-- `utf32ToUtf16`, if there is a destination. -/
def utf32ToUtf16 (src : List UInt32) (dstLen : Nat) : Conv UInt16 :=
  finish src 4 (utf32ToUtf16Loop dstLen src (.start UInt16))

end Firebird.Jrd.UnicodeUtil
