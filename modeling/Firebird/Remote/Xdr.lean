import Mathlib.Data.List.Induction
import Firebird.Machine

/-!
# XDR items

Items of a fixed and of a variable length are put on a memory stream and read back. Behind the bytes
of an item there is filler up to a multiple of four.
-/
namespace Firebird.Remote.Xdr

open List

/-- `(4 - length) & 3` -/
def padding (length : Nat) : Nat := (4 - length % 4) % 4

/-- `mem_putlong`; the longword is stored by `htonl`. -/
def putLong (n : Int) : List UInt8 :=
  [.ofInt (n / 2 ^ 24), .ofInt (n / 2 ^ 16), .ofInt (n / 2 ^ 8), .ofInt n]

def getLong : List UInt8 → Option (Int × List UInt8)
  | a :: b :: c :: d :: stream =>
    some (slong (a.toNat * 2 ^ 24 + b.toNat * 2 ^ 16 + c.toNat * 2 ^ 8 + d.toNat), stream)
  | _ => none

/-- How many bytes `mem_getbytes` gives to `memcpy`, unless it returns `FALSE`. A count from `2 ^
31` on is negative as `bytecount`: it raises `x_handy`, and `memcpy` gets it as a `size_t`. -/
def memcpyCount (count xHandy : Nat) : Option Nat :=
  let bytecount := slong count
  if slong (xHandy - bytecount) < 0 then none else some (bytecount % 2 ^ 64).toNat

/-- `mem_getbytes`, if it comes back and returns `TRUE`. -/
def getBytes (count : Nat) (stream : List UInt8) : Option (List UInt8 × List UInt8) := do
  let n ← memcpyCount count stream.length
  if n ≤ stream.length then some (stream.splitAt n) else none

/-- A call, with the value that `*lp` has before it. -/
inductive Call
  | opaqueBytes (len : Nat)
  | string (maxlength : Nat)
  | bytes (maxlength lp : Nat)
  | short
  | hyper

inductive Item
  | opaqueBytes (p : List UInt8)
  | string (sp : List UInt8)
  | bytes (bpp : List UInt8) (lp : Nat)
  | short (ip : Int16)
  | hyper (pi64 : Int64)
  deriving DecidableEq

/-- `XDR_ENCODE`: what a call puts on the stream, which has room for it. `zeros` is the static
variable of that name. -/
def encode (zeros : List UInt8) : Call → Item → Option (List UInt8)
  | .opaqueBytes len, .opaqueBytes p => some (p ++ replicate (padding len) 0)
  | .string maxlength, .string sp =>
    if sp.length > maxlength then none
    else some (putLong sp.length ++ sp ++ replicate (padding sp.length) 0)
  | .bytes maxlength _, .bytes bpp lp =>
    if slong lp > slong maxlength then none
    else some (putLong lp ++ bpp ++ zeros.take (padding lp))
  | .short, .short ip => some (putLong ip.toInt)
  | .hyper, .hyper pi64 => some (putLong (pi64.toInt / 2 ^ 32) ++ putLong pi64.toInt)
  | _, _ => none

structure State where
  stream : List UInt8
  zeros : List UInt8
  deriving DecidableEq

/-- `XDR_DECODE`: how many bytes are written to the destination, and the item. -/
def decode (s : State) : Call → Nat × Option (Item × State)
  | .opaqueBytes len =>
    ((memcpyCount len s.stream.length).getD 0, do
      let (p, stream) ← getBytes len s.stream
      let (_, stream) ← getBytes (padding len) stream
      some (.opaqueBytes p, { s with stream }))
  | .string maxlength =>
    match getLong s.stream with
    | none => (0, none)
    | some (length, stream) =>
      let length := (ulong length).toNat
      if length > maxlength then (0, none)
      else
        ((memcpyCount length stream.length).elim 0 (· + 1), do
          let (sp, stream) ← getBytes length stream
          let (_, stream) ← getBytes (padding length) stream
          some (.string sp, { s with stream }))
  | .bytes maxlength lp =>
    match getLong s.stream with
    | none => (0, none)
    | some (length, stream) =>
      if length > slong maxlength then (0, none)
      else
        let count := (ulong length).toNat
        ((memcpyCount count stream.length).getD 0, do
          let (bpp, stream) ← getBytes count stream
          -- `length` is the number of pad bytes from here on
          let length := padding bpp.length
          if length ≠ 0 then
            let (pad, stream) ← getBytes length stream
            some (.bytes bpp lp, ⟨stream, pad ++ s.zeros.drop length⟩)
          else some (.bytes bpp length, { s with stream }))
  | .short =>
    match getLong s.stream with
    | none => (0, none)
    | some (temp, stream) => (2, some (.short (.ofInt temp), { s with stream }))
  | .hyper =>
    match getLong s.stream with
    | none => (0, none)
    | some (high, stream) =>
      match getLong stream with
      | none => (0, none)
      | some (low, stream) =>
        (8, some (.hyper (.ofInt (high * 2 ^ 32 + ulong low)), { s with stream }))

def encodeAll (zeros : List UInt8) : List (Call × Item) → Option (List UInt8)
  | [] => some []
  | (call, item) :: xs => do
    let bytes ← encode zeros call item
    let stream ← encodeAll zeros xs
    some (bytes ++ stream)

def decodeAll : List Call → State → Option (List Item × State)
  | [], s => some ([], s)
  | call :: calls, s => do
    let (item, s) ← (decode s call).2
    let (items, s) ← decodeAll calls s
    some (item :: items, s)

/-- An item fits the call: its length is the one given or within `maxlength`, which is an
`u_int`. -/
def Fits : Call × Item → Prop
  | (.opaqueBytes len, .opaqueBytes p) => len = p.length
  | (.string maxlength, .string sp) => sp.length ≤ maxlength ∧ maxlength < 2 ^ 32 ∧ 0 ∉ sp
  | (.bytes maxlength _, .bytes bpp lp) => lp = bpp.length ∧ lp ≤ maxlength ∧ maxlength < 2 ^ 32
  | _ => True

theorem slong_eq (n : Int) :
    slong n = if n % 2 ^ 32 < 2 ^ 31 then n % 2 ^ 32 else n % 2 ^ 32 - 2 ^ 32 := rfl

theorem getLong_putLong (n : Int) (stream : List UInt8) :
    getLong (putLong n ++ stream) = some (slong n, stream) := by
  have h (m : Int) : ((UInt8.ofInt m).toNat : Int) = m % 256 := by
    simp [UInt8.ofInt]
    omega
  have hsum : n / 2 ^ 24 % 256 * 2 ^ 24 + n / 2 ^ 16 % 256 * 2 ^ 16 + n / 2 ^ 8 % 256 * 2 ^ 8 +
      n % 256 = n % 2 ^ 32 := by omega
  simp only [putLong, cons_append, nil_append, getLong, h, hsum, slong]
  rw [show (2 : Int) ^ 32 = (2 ^ 32 : Nat) from rfl, Int.emod_bmod]

variable {p stream : List UInt8} {n : Nat}

theorem getBytes_append (hp : p.length = n)
    (h : (p ++ stream).length < 2 ^ 31) : getBytes n (p ++ stream) = some (p, stream) := by
  subst hp
  have hcount : slong p.length = p.length := by grind [slong_of_lt]
  have hhandy : slong ((p ++ stream).length - p.length) = stream.length := by grind [slong_of_lt]
  have hmem : memcpyCount p.length (p ++ stream).length = some p.length := by
    rw [length_append] at h
    rw [memcpyCount, hcount, hhandy, if_neg (by omega), Int.emod_eq_of_lt (by omega) (by omega),
      Int.toNat_natCast]
  rw [getBytes, hmem, Option.bind_eq_bind, Option.bind_some, if_pos (by grind), splitAt_eq,
    take_left,
    drop_left]

theorem ulong_slong (h : n < 2 ^ 31) : (ulong (slong n)).toNat = n := by
  rw [slong_of_lt (by omega) (by omega), ulong_of_lt (by omega) (by omega), Int.toNat_natCast]

theorem length_lt {a b : List UInt8} (h : (a ++ b).length < n) :
    a.length < n ∧ b.length < n := by
  grind

/-- What is read back for an item: `*lp` is set to the number of pad bytes, if that is zero. -/
def seen : Call × Item → Item
  | (.bytes _ lp, .bytes bpp _) => .bytes bpp (if padding bpp.length = 0 then 0 else lp)
  | x => x.2

/-- How many pad bytes are read into `zeros`. -/
def padCount : Call × Item → Nat
  | (.bytes _ _, .bytes bpp _) => padding bpp.length
  | _ => 0

/-- `zeros` when its first bytes were read over. -/
def after (pads zeros : List UInt8) (x : Call × Item) : List UInt8 :=
  pads.take (padCount x) ++ zeros.drop (padCount x)

variable {pads zeros bytes rest : List UInt8} {x : Call × Item} {xs : List (Call × Item)}

theorem decode_encode (hpads : pads.length = 4) (hfits : Fits x)
    (hx : encode pads x.1 x.2 = some bytes) (hlen : (bytes ++ rest).length < 2 ^ 31) :
    (decode ⟨bytes ++ rest, zeros⟩ x.1).2 = some (seen x, ⟨rest, after pads zeros x⟩) := by
  obtain ⟨call, item⟩ := x
  have hpad (n : Nat) : (pads.take (padding n)).length = padding n := by
    rw [length_take, hpads, padding]
    omega
  revert hx
  fun_cases encode pads call item with
  | case1 len p =>
    rintro ⟨⟩
    rw [append_assoc] at hlen ⊢
    dsimp only [decode]
    rw [getBytes_append hfits.symm hlen]
    rw [Option.bind_eq_bind, Option.bind_some]
    rw [getBytes_append length_replicate (length_lt hlen).2]
    rfl
  | case2 => nofun
  | case3 maxlength sp h =>
    rintro ⟨⟩
    rw [append_assoc, append_assoc] at hlen ⊢
    have hlength := ulong_slong (length_lt (length_lt hlen).2).1
    dsimp only [decode]
    rw [getLong_putLong]
    dsimp only
    rw [hlength, if_neg h, getBytes_append rfl (length_lt hlen).2]
    rw [Option.bind_eq_bind, Option.bind_some]
    rw [getBytes_append length_replicate (length_lt (length_lt hlen).2).2]
    rfl
  | case4 => nofun
  | case5 maxlength _ bpp lp h =>
    rintro ⟨⟩
    obtain ⟨rfl, hle, -⟩ := hfits
    rw [append_assoc, append_assoc] at hlen ⊢
    have hlength := ulong_slong (length_lt (length_lt hlen).2).1
    dsimp only [decode]
    rw [getLong_putLong]
    dsimp only
    rw [hlength, if_neg h, getBytes_append rfl (length_lt hlen).2]
    rw [Option.bind_eq_bind, Option.bind_some]
    rw [getBytes_append (hpad _) (length_lt (length_lt hlen).2).2]
    by_cases hzero : padding bpp.length = 0 <;> simp [seen, after, padCount, hzero]
  | case6 ip =>
    rintro ⟨⟩
    dsimp only [decode]
    rw [getLong_putLong]
    have : Int16.ofInt (slong ip.toInt) = ip := by
      rw [slong_of_lt (by grind [ip.le_toInt]) (by grind [ip.toInt_lt]), Int16.ofInt_toInt]
    dsimp only
    rw [this]
    rfl
  | case7 pi64 =>
    rintro ⟨⟩
    dsimp only [decode]
    rw [append_assoc, getLong_putLong]
    dsimp only
    rw [getLong_putLong]
    have hlow (n : Int) : ulong (slong n) = n % 2 ^ 32 := Int.bmod_emod
    have hval : slong (pi64.toInt / 2 ^ 32) * 2 ^ 32 + ulong (slong pi64.toInt) = pi64.toInt := by
      have lo := pi64.le_toInt
      have hi := pi64.toInt_lt
      rw [slong_of_lt (by omega) (by omega), hlow]
      omega
    dsimp only
    rw [hval, Int64.ofInt_toInt]
    rfl
  | case8 => nofun

theorem decodeAll_encodeAll (hpads : pads.length = 4) (hfits : ∀ x ∈ xs, Fits x)
    (hxs : encodeAll pads xs = some bytes) (hlen : (bytes ++ rest).length < 2 ^ 31) :
    decodeAll (xs.map Prod.fst) ⟨bytes ++ rest, zeros⟩ =
      some (xs.map seen, ⟨rest, xs.foldl (after pads) zeros⟩) := by
  induction xs generalizing bytes zeros with
  | nil =>
    cases hxs
    rfl
  | cons x xs ih =>
    obtain ⟨first, hfirst, hxs⟩ := Option.bind_eq_some_iff.mp hxs
    obtain ⟨others, hothers, hbytes⟩ := Option.bind_eq_some_iff.mp hxs
    cases hbytes
    rw [append_assoc] at hlen ⊢
    rw [map_cons, decodeAll, decode_encode hpads (hfits x mem_cons_self) hfirst hlen,
      Option.bind_eq_bind, Option.bind_some]
    dsimp only
    rw [ih (fun y hy => hfits y (mem_cons_of_mem _ hy)) hothers (length_lt hlen).2]
    rfl

/-- The length of an `xdr_bytes` item is reported. -/
def Reported : Call × Item → Prop
  | (.bytes _ lp, .bytes bpp _) => bpp = [] ∨ ¬4 ∣ bpp.length ∧ lp = bpp.length
  | _ => True

theorem seen_eq_iff (hfits : Fits x) : seen x = x.2 ↔ Reported x := by
  unfold Fits at hfits
  unfold seen Reported padding
  grind

/-! ## The pad bytes that are read -/

/-- How many bytes `memcpy` copies for a count. -/
def copied (count : Nat) : Nat := (slong count % 2 ^ 64).toNat

def announced (stream : List UInt8) : Nat :=
  match getLong stream with
  | none => 0
  | some (length, _) => copied (ulong length).toNat

def size : Call → List UInt8 → Nat
  | .opaqueBytes len, _ => copied len + padding len
  | .string _, stream | .bytes _ _, stream => 4 + announced stream + padding (announced stream)
  | .short, _ => 4
  | .hyper, _ => 8

/-- The pad bytes that stand behind an `xdr_bytes` item. -/
def padBytes : Call → List UInt8 → List UInt8
  | .bytes _ _, stream => (stream.drop (4 + announced stream)).take (padding (announced stream))
  | _, _ => []

/-- The pad bytes of the items that are read, one after another. -/
def padsRead : List Call → List UInt8 → List (List UInt8)
  | [], _ => []
  | call :: calls, stream => padBytes call stream :: padsRead calls (stream.drop (size call stream))

/-- Of the pad bytes, those that were read last at a place are those that `zeros` holds there. -/
def Kept (zeros : List UInt8) (pads : List (List UInt8)) : Prop :=
  ∀ i, ∀ pad ∈ (pads.filter (i < ·.length)).getLast?, pad[i]? = zeros[i]?

theorem padding_lt (n : Nat) : padding n < 4 := Nat.mod_lt _ (by decide)

theorem copied_padding (n : Nat) : copied (padding n) = padding n := by
  have := padding_lt n
  rw [copied, slong_of_lt (by omega) (by omega)]
  omega

theorem padding_copied (n : Nat) : padding (copied n) = padding n := by
  have hmod : copied n % 4 = n % 4 := by
    rw [copied, slong_eq]
    split_ifs <;> omega
  rw [padding, padding, hmod]

theorem getBytes_eq {rest : List UInt8} (h : getBytes n stream = some (p, rest)) :
    copied n ≤ stream.length ∧ p = stream.take (copied n) ∧ rest = stream.drop (copied n) := by
  rw [getBytes, memcpyCount] at h
  split_ifs at h with hneg
  · exact absurd h (by simp)
  · rw [Option.bind_eq_bind, Option.bind_some] at h
    split_ifs at h with hle
    rw [splitAt_eq] at h
    obtain ⟨rfl, rfl⟩ := Prod.mk.inj (Option.some.inj h)
    exact ⟨hle, rfl, rfl⟩

theorem getLong_rest {rest : List UInt8} {n : Int} (h : getLong stream = some (n, rest)) :
    rest = stream.drop 4 := by
  revert h
  fun_cases getLong stream with
  | case1 a b c d stream =>
    intro h
    exact (Prod.mk.inj (Option.some.inj h)).2.symm
  | case2 => exact fun h => absurd h (by simp)

/-- `zeros` with pad bytes read over its first ones. -/
def overlay (zeros pad : List UInt8) : List UInt8 := pad ++ zeros.drop pad.length

theorem getElem?_overlay (zeros pad : List UInt8) (i : Nat) :
    (overlay zeros pad)[i]? = if i < pad.length then pad[i]? else zeros[i]? := by
  rw [overlay, getElem?_append]
  split_ifs with hi
  · rfl
  · rw [getElem?_drop, Nat.add_sub_cancel' (Nat.le_of_not_lt hi)]

theorem getElem?_foldl_overlay (zeros : List UInt8) (pads : List (List UInt8)) (i : Nat) :
    (pads.foldl overlay zeros)[i]? =
      (pads.filter (i < ·.length)).getLast?.elim zeros[i]? (·[i]?) := by
  induction pads using List.reverseRecOn with
  | nil => rfl
  | append_singleton pads pad ih =>
    rw [foldl_append, foldl_cons, foldl_nil, getElem?_overlay, ih, filter_append]
    by_cases hi : i < pad.length
    · simp [hi]
    · simp [hi]

theorem foldl_overlay_eq_iff {zeros : List UInt8} {pads : List (List UInt8)} :
    pads.foldl overlay zeros = zeros ↔ Kept zeros pads := by
  rw [show pads.foldl overlay zeros = zeros ↔ ∀ i, (pads.foldl overlay zeros)[i]? = zeros[i]? from
    ⟨fun h i => congrArg (·[i]?) h, ext_getElem?⟩]
  refine forall_congr' fun i => ?_
  rw [getElem?_foldl_overlay]
  cases (pads.filter (i < ·.length)).getLast? with
  | none => simp
  | some pad => simp

theorem getBytes_padding {rest pad rest' : List UInt8}
    (h : getBytes n stream = some (p, rest))
    (hpad : getBytes (padding n) rest = some (pad, rest')) :
    pad = (stream.drop (copied n)).take (padding n) ∧ pad.length = padding n ∧
      rest' = stream.drop (copied n + padding n) := by
  obtain ⟨-, -, hrest⟩ := getBytes_eq h
  obtain ⟨hle, hpad, hrest'⟩ := getBytes_eq hpad
  rw [copied_padding] at hle hpad hrest'
  refine ⟨by rw [hpad, hrest], by rw [hpad, length_take, Nat.min_eq_left hle], ?_⟩
  rw [hrest', hrest, drop_drop]

theorem announced_of {rest : List UInt8} {n : Int} (h : getLong stream = some (n, rest)) :
    announced stream = copied (ulong n).toNat := by
  rw [announced, h]

theorem overlay_nil (zeros : List UInt8) : overlay zeros [] = zeros := rfl

variable {s s' : State}

theorem decode_state {call : Call} {item : Item}
    (h : (decode s call).2 = some (item, s')) :
    s'.stream = s.stream.drop (size call s.stream) ∧
      s'.zeros = overlay s.zeros (padBytes call s.stream) := by
  cases call with
  | opaqueBytes len =>
    simp only [decode, Option.bind_eq_bind, Option.bind_eq_some_iff, Option.some.injEq,
      Prod.mk.injEq, Prod.exists] at h
    obtain ⟨p, rest, hp, pad, rest', hpad, -, rfl⟩ := h
    exact ⟨(getBytes_padding hp hpad).2.2, rfl⟩
  | string maxlength =>
    cases hlong : getLong s.stream with
    | none => simp [decode, hlong] at h
    | some x =>
      obtain ⟨length, stream⟩ := x
      obtain rfl := getLong_rest hlong
      simp only [decode, hlong] at h
      split_ifs at h
      simp only [Option.bind_eq_bind, Option.bind_eq_some_iff, Option.some.injEq, Prod.mk.injEq,
        Prod.exists] at h
      obtain ⟨p, rest, hp, pad, rest', hpad, -, rfl⟩ := h
      refine ⟨?_, rfl⟩
      rw [(getBytes_padding hp hpad).2.2, size, announced_of hlong, padding_copied, drop_drop,
        Nat.add_assoc]
  | bytes maxlength lp =>
    cases hlong : getLong s.stream with
    | none => simp [decode, hlong] at h
    | some x =>
      obtain ⟨length, stream⟩ := x
      obtain rfl := getLong_rest hlong
      simp only [decode, hlong] at h
      split_ifs at h
      simp only [Option.bind_eq_bind, Option.bind_eq_some_iff, Prod.exists] at h
      obtain ⟨bpp, rest, hbpp, h⟩ := h
      obtain ⟨hle, htake, hrest⟩ := getBytes_eq hbpp
      have hlength : padding bpp.length = padding (ulong length).toNat := by
        rw [htake, length_take, Nat.min_eq_left hle, padding_copied]
      rw [size, padBytes, announced_of hlong, padding_copied]
      rw [hlength] at h
      split_ifs at h with hpadding
      · simp only [Option.bind_eq_some_iff, Option.some.injEq, Prod.mk.injEq, Prod.exists] at h
        obtain ⟨pad, rest', hpad, -, rfl⟩ := h
        obtain ⟨hpad', hpadlen, hrest'⟩ := getBytes_padding hbpp hpad
        rw [drop_drop] at hpad' hrest'
        rw [overlay, ← hpad', hpadlen, Nat.add_assoc]
        exact ⟨hrest', rfl⟩
      · rw [not_not] at hpadding
        simp only [Option.some.injEq, Prod.mk.injEq] at h
        obtain ⟨-, rfl⟩ := h
        rw [drop_drop] at hrest
        rw [hpadding, take_zero, overlay_nil, Nat.add_zero]
        exact ⟨hrest, rfl⟩
  | short =>
    cases hlong : getLong s.stream with
    | none => simp [decode, hlong] at h
    | some x =>
      obtain ⟨temp, stream⟩ := x
      obtain rfl := getLong_rest hlong
      simp only [decode, hlong, Option.some.injEq, Prod.mk.injEq] at h
      obtain ⟨-, rfl⟩ := h
      exact ⟨rfl, rfl⟩
  | hyper =>
    cases hhigh : getLong s.stream with
    | none => simp [decode, hhigh] at h
    | some x =>
      obtain ⟨high, stream⟩ := x
      obtain rfl := getLong_rest hhigh
      simp only [decode, hhigh] at h
      cases hlow : getLong (s.stream.drop 4) with
      | none => simp [hlow] at h
      | some x =>
        obtain ⟨low, stream⟩ := x
        obtain rfl := getLong_rest hlow
        simp only [hlow, Option.some.injEq, Prod.mk.injEq] at h
        obtain ⟨-, rfl⟩ := h
        exact ⟨drop_drop, rfl⟩

variable {calls : List Call}

theorem decodeAll_zeros {items : List Item}
    (h : decodeAll calls s = some (items, s')) :
    s'.zeros = (padsRead calls s.stream).foldl overlay s.zeros := by
  induction calls generalizing s items with
  | nil =>
    obtain ⟨-, rfl⟩ := Prod.mk.inj (Option.some.inj h)
    rfl
  | cons call calls ih =>
    simp only [decodeAll, Option.bind_eq_bind, Option.bind_eq_some_iff, Option.some.injEq,
      Prod.mk.injEq, Prod.exists] at h
    obtain ⟨item, s₁, hitem, others, s₂, hothers, -, rfl⟩ := h
    obtain ⟨hstream, hzeros⟩ := decode_state hitem
    rw [padsRead, foldl_cons, ih hothers, hstream, hzeros]

theorem take_eq_of_encodeAll {z z' : List UInt8}
    (h : ∀ later, encodeAll z' later = encodeAll z later) : z'.take 3 = z.take 3 := by
  have := h [(.bytes 1 0, .bytes [0] 1)]
  simpa [encodeAll, encode, padding, slong, putLong] using this

theorem length_of_mem_padsRead {pad : List UInt8}
    (h : pad ∈ padsRead calls stream) : pad.length ≤ 3 := by
  induction calls generalizing stream with
  | nil => cases h
  | cons call calls ih =>
    rw [padsRead, mem_cons] at h
    obtain rfl | h := h
    · cases call with
      | bytes _ _ => exact (length_take_le _ _).trans (Nat.le_of_lt_succ (padding_lt _))
      | _ => exact Nat.zero_le _
    · exact ih h

/-- Later encodings are what they would have been if and only if the pad bytes that were read are
those of `zeros`. -/
theorem encodeAll_decodeAll_iff {items : List Item}
    (h : decodeAll calls s = some (items, s')) :
    (∀ later, encodeAll s'.zeros later = encodeAll s.zeros later) ↔
      Kept s.zeros (padsRead calls s.stream) := by
  have hzeros := decodeAll_zeros h
  constructor
  · intro hlater i pad hpad
    obtain ⟨hmem, hi⟩ := mem_filter.1 (mem_of_getLast? hpad)
    have hle := length_of_mem_padsRead hmem
    have hi3 : i < 3 := by
      have := of_decide_eq_true hi
      omega
    have hplace : s'.zeros[i]? = pad[i]? := by
      rw [hzeros, getElem?_foldl_overlay, hpad, Option.elim_some]
    have htake : (s'.zeros.take 3)[i]? = (s.zeros.take 3)[i]? := by
      rw [take_eq_of_encodeAll hlater]
    rw [getElem?_take, getElem?_take, if_pos hi3, if_pos hi3] at htake
    exact hplace.symm.trans htake
  · intro hkept later
    rw [hzeros, foldl_overlay_eq_iff.2 hkept]

/-- A negative length passes the check of the routine and that of `mem_getbytes`. -/
def Overrun (accepted : Int → Prop) (stream : List UInt8) : Prop :=
  match getLong stream with
  | none => False
  | some (length, rest) => length < 0 ∧ accepted length ∧ rest.length - length < 2 ^ 31

theorem memcpyCount_le_iff {length : Int} {xHandy maxlength k : Nat} (hlo : -2 ^ 31 ≤ length)
    (hhi : length < 2 ^ 31) (hhandy : xHandy < 2 ^ 31) (hmax : maxlength < 2 ^ 32) (hk : k ≤ 1)
    (hle : 0 ≤ length → length ≤ maxlength) :
    (memcpyCount (ulong length).toNat xHandy).elim 0 (· + k) ≤ maxlength + 1 ↔
      ¬(length < 0 ∧ xHandy - length < 2 ^ 31) := by
  have hcount : slong (ulong length).toNat = length := by
    rw [ulong, Int.toNat_of_nonneg (Int.emod_nonneg _ (by decide)), slong_eq]
    split_ifs <;> omega
  rw [memcpyCount, hcount, slong_eq]
  split_ifs <;> simp <;> omega

theorem getD_zero (n : Option Nat) : n.getD 0 = n.elim 0 (· + 0) := by cases n <;> rfl

theorem written_le_iff {maxlength lp : Nat} (hmax : maxlength < 2 ^ 32)
    (hlen : stream.length < 2 ^ 31) :
    ((decode ⟨stream, zeros⟩ (.string maxlength)).1 ≤ maxlength + 1 ↔
      ¬Overrun (ulong · ≤ maxlength) stream) ∧
    ((decode ⟨stream, zeros⟩ (.bytes maxlength lp)).1 ≤ maxlength + 1 ↔
      ¬Overrun (· ≤ slong maxlength) stream) := by
  have hslong (n : Int) : -2 ^ 31 ≤ slong n ∧ slong n < 2 ^ 31 := by
    rw [slong_eq]
    split_ifs <;> omega
  unfold Overrun
  dsimp only [decode]
  cases hlong : getLong stream with
  | none => simp
  | some x =>
    obtain ⟨length, rest⟩ := x
    obtain ⟨hrange, hrest⟩ : (-2 ^ 31 ≤ length ∧ length < 2 ^ 31) ∧ rest.length < 2 ^ 31 := by
      revert hlong
      fun_cases getLong stream with
      | case1 a b c d rest =>
        intro h
        obtain ⟨rfl, rfl⟩ := Prod.mk.inj (Option.some.inj h)
        exact ⟨hslong _, Nat.lt_of_le_of_lt (by grind) hlen⟩
      | case2 => nofun
    have hiff {k : Nat} (hk : k ≤ 1) (hle : 0 ≤ length → length ≤ maxlength) :=
      memcpyCount_le_iff hrange.1 hrange.2 hrest hmax hk hle
    have hulong : 0 ≤ length → ulong length = length := fun h => ulong_of_lt h (by omega)
    dsimp only
    constructor <;> split_ifs with h
    · exact iff_of_true (Nat.zero_le _) fun hover => by omega
    · rw [hiff le_rfl (by omega)]
      exact not_congr (and_congr_right fun _ => (and_iff_right (by omega)).symm)
    · exact iff_of_true (Nat.zero_le _) fun hover => by omega
    · have hmax' : slong maxlength ≤ maxlength := by
        rw [slong_eq]
        split_ifs <;> omega
      rw [getD_zero, hiff (Nat.zero_le _) (by omega)]
      exact not_congr (and_congr_right fun _ => (and_iff_right (by omega)).symm)

/-- The items come back if and only if the lengths of the `xdr_bytes` items are reported; whatever
stream is decoded, later encodings are what they would have been if and only if the pad bytes behind
`xdr_bytes` items are those that `zeros` holds, and a destination is kept within its bound if and
only if no negative length passes. -/
theorem xdr_iff (zeros pads : List UInt8) (hpads : pads.length = 4)
    (xs : List (Call × Item)) (hfits : ∀ x ∈ xs, Fits x) (stream : List UInt8)
    (hstream : encodeAll pads xs = some stream) (hlen : stream.length < 2 ^ 31) :
    (∃ items s, decodeAll (xs.map Prod.fst) ⟨stream, zeros⟩ = some (items, s) ∧ s.stream = [] ∧
      (items = xs.map Prod.snd ↔ ∀ x ∈ xs, Reported x)) ∧
    (∀ calls stream items s, decodeAll calls ⟨stream, zeros⟩ = some (items, s) →
      ((∀ later, encodeAll s.zeros later = encodeAll zeros later) ↔
        Kept zeros (padsRead calls stream))) ∧
    ∀ maxlength lp stream, maxlength < 2 ^ 32 → stream.length < 2 ^ 31 →
      ((decode ⟨stream, zeros⟩ (.string maxlength)).1 ≤ maxlength + 1 ↔
        ¬Overrun (ulong · ≤ maxlength) stream) ∧
      ((decode ⟨stream, zeros⟩ (.bytes maxlength lp)).1 ≤ maxlength + 1 ↔
        ¬Overrun (· ≤ slong maxlength) stream) := by
  have hdecode : decodeAll (xs.map Prod.fst) ⟨stream ++ [], zeros⟩ = _ :=
    decodeAll_encodeAll hpads hfits hstream (by rwa [append_nil])
  rw [append_nil] at hdecode
  refine ⟨⟨_, _, hdecode, rfl, ?_⟩, fun _ _ _ _ h => encodeAll_decodeAll_iff h,
    fun _ _ _ hmax hlen' => written_le_iff hmax hlen'⟩
  rw [map_inj_left]
  exact forall₂_congr fun x hx => seen_eq_iff (hfits x hx)

/-- Four bytes come back with length zero, pad bytes of a stream are put on later ones, and a length
of -1 has the rest of the memory written over. -/
theorem xdr_defects :
    decodeAll [.bytes 8 0] ⟨[0, 0, 0, 4, 1, 2, 3, 4], [0, 0, 0, 0]⟩ =
        some ([.bytes [1, 2, 3, 4] 0], ⟨[], [0, 0, 0, 0]⟩) ∧
      (decodeAll [.bytes 8 0] ⟨[0, 0, 0, 1, 1, 7, 8, 9], [0, 0, 0, 0]⟩).map (·.2.zeros) =
        some [7, 8, 9, 0] ∧
      encode [7, 8, 9, 0] (.bytes 8 0) (.bytes [1] 1) = some [0, 0, 0, 1, 1, 7, 8, 9] ∧
      8 + 1 < (decode ⟨[255, 255, 255, 255], [0, 0, 0, 0]⟩ (.bytes 8 0)).1 := by
  decide

/-- A string, an opaque item of a multiple of four bytes, and bytes whose length was known; and two
`xdr_bytes` items, of which the second has the pad bytes of `zeros`. -/
theorem xdr_iff_example :
    (∃ items s, decodeAll [.string 8, .opaqueBytes 4, .bytes 8 1]
      ⟨[0, 0, 0, 2, 97, 98, 0, 0, 1, 2, 3, 4,
        0, 0, 0, 1, 5, 0, 0, 0], [0, 0, 0, 0]⟩ = some (items, s) ∧ s.stream = []) ∧
    ((∀ later, encodeAll [0, 0, 0, 0] later = encodeAll [0, 0, 0, 0] later) ↔
      Kept [0, 0, 0, 0] [[7], [0, 0, 0]]) :=
  have ⟨⟨items, s, h, hs, _⟩, hlater, _⟩ := xdr_iff [0, 0, 0, 0] [0, 0, 0, 0] rfl
    [(.string 8, .string [97, 98]), (.opaqueBytes 4, .opaqueBytes [1, 2, 3, 4]),
      (.bytes 8 1, .bytes [5] 1)]
    (by simp [Fits]) _ (by rfl) (by decide)
  ⟨⟨items, s, h, hs⟩, hlater [.bytes 8 0, .bytes 8 0]
    [0, 0, 0, 3, 1, 2, 3, 7, 0, 0, 0, 1, 5, 0, 0, 0] [.bytes [1, 2, 3] 0, .bytes [5] 0]
    ⟨[], [0, 0, 0, 0]⟩ (by decide)⟩

end Firebird.Remote.Xdr
