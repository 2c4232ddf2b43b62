import Firebird.Machine
import Firebird.Lib.RunLength

/-!
# Record compression

`SQZ_length` measures a record and leaves a control string, `SQZ_fast` packs the record
along that string, and `SQZ_decompress` unpacks it. The control string lives in a chain
of 128-byte `DataComprControl` blocks.

The three loops are related through the token stream of `Firebird.Lib.RunLength`: the
measuring loop writes the control letters of a stream that expands to the record, the
packing loop writes its encoding, and the unpacking loop expands any encoding.
-/
namespace Firebird.Sqz
open Lib RunLength List

/-- A chain of control blocks. A block is left only when it is full, and then a fresh one
is already linked behind it, so the last block always has room (and may be empty). -/
structure DataComprControl where
  full : List {s : List SCHAR // s.length = 128}
  last : List SCHAR
  room : last.length < 128

namespace DataComprControl

/-- The caller's block, `dcc_next` cleared and the control pointer at its start. -/
def start : DataComprControl := ⟨[], [], by simp⟩

/-- `*control++ = c`, with the move to a new block when `control == end_control`. -/
def push (dcc : DataComprControl) (c : SCHAR) : DataComprControl :=
  if h : dcc.last.length + 1 = 128 then
    ⟨dcc.full ++ [⟨dcc.last ++ [c], by simpa using h⟩], [], by simp⟩
  else
    ⟨dcc.full, dcc.last ++ [c], by have := dcc.room; simp; omega⟩

def blocks (dcc : DataComprControl) : List (List SCHAR) := dcc.full.map (·.1) ++ [dcc.last]

def controls (dcc : DataComprControl) : List SCHAR := dcc.blocks.flatten

@[simp] theorem controls_start : start.controls = [] := rfl

@[simp] theorem controls_push (dcc : DataComprControl) (c : SCHAR) :
    (dcc.push c).controls = dcc.controls ++ [c] := by
  unfold push
  split <;> simp [controls, blocks]

end DataComprControl

/-- The look-ahead for three equal bytes: `max` is the 16-bit countdown of the loop, and
the result is the offset of the first such triple. -/
def findTriple : Nat → List SCHAR → Option Nat
  | max + 1, a :: b :: c :: rest =>
    if max + 1 ≤ 1 then none
    else if a ≠ b ∨ a ≠ c then (findTriple max (b :: c :: rest)).map (· + 1)
    else some 0
  | _, _ => none

/-- Cut a stretch of `count` incompressible bytes into literals of at most 127. The state
is the running length and the control chain. -/
def literalLoop : Nat → Nat → Nat × DataComprControl → Nat × DataComprControl
  | 0, _, s => s
  | fuel + 1, count, (length, dcc) =>
    if count = 0 then (length, dcc)
    else
      let max := min count 127
      literalLoop fuel (count - max) (length + (1 + max), dcc.push (Int8.ofInt max))

/-- Bytes equal to `c` at the front, at most `max` of them. -/
def runOf (c : SCHAR) : Nat → List SCHAR → Nat
  | max + 1, b :: rest => if b ≠ c then 0 else runOf c max rest + 1
  | _, _ => 0

/-- The main loop of `SQZ_length`. Every turn consumes at least one byte, so the length
of the record is fuel enough (`sqzLengthLoop_tokens`). -/
def sqzLengthLoop : Nat → List SCHAR → Nat × DataComprControl → Nat × DataComprControl
  | 0, _, s => s
  | fuel + 1, data, s =>
    let count := ushort data.length
    if count = 0 then s
    else
      let max := ushort (count - 1)
      let count := if max > 1 then (findTriple max data).getD count else count
      let data := data.drop count
      let s := literalLoop count count s
      let max := ushort (min 128 data.length)
      if 3 ≤ max then
        let run := runOf (data.headD 0) max data
        sqzLengthLoop fuel (data.drop run) (s.1 + 2, s.2.push (Int8.ofInt (-run)))
      else sqzLengthLoop fuel data s

/-- `SQZ_length`: the packed length and the control chain. -/
def sqzLength (data : List SCHAR) : Nat × DataComprControl :=
  sqzLengthLoop data.length data (0, .start)

/-- One block of `SQZ_fast`: the bytes written and the input left. `none` stands for a
read outside the record. -/
def fastBlock : List SCHAR → List SCHAR → Option (List SCHAR × List SCHAR)
  | [], input => some ([], input)
  | control :: rest, input =>
    let length := control.toInt
    if length < 0 then
      match input with
      | [] => none
      | c :: _ =>
        if input.length < (-length).toNat then none
        else (fastBlock rest (input.drop (-length).toNat)).map
          fun (out, left) => (control :: c :: out, left)
    else if length > 0 then
      if input.length < length.toNat then none
      else (fastBlock rest (input.drop length.toNat)).map
        fun (out, left) => (control :: (input.take length.toNat ++ out), left)
    else (fastBlock rest input).map fun (out, left) => (control :: out, left)

def fastChain : List (List SCHAR) → List SCHAR → Option (List SCHAR)
  | [], _ => some []
  | block :: next, input => do
    let (out, left) ← fastBlock block input
    let out' ← fastChain next left
    return out ++ out'

/-- `SQZ_fast`: everything written to the output area. -/
def sqzFast (dcc : DataComprControl) (input : List SCHAR) : Option (List SCHAR) :=
  fastChain dcc.blocks input

/-- How a call can end other than by returning: a `BUGCHECK` with its message number, or a
read of bytes the caller did not supply. -/
inductive Fault where
  | bugcheck (msg : Nat)
  | overread
  deriving DecidableEq

/-- The loop of `SQZ_decompress`. `length` is the distance to `last` (zero once `input` has reached
or passed it), and `cap` the room up to `output_end`. -/
def decompressLoop (cap : Nat) :
    Nat → List SCHAR → Nat → List SCHAR → Except Fault (List SCHAR)
  | 0, _, _, output => .ok output
  | _ + 1, _, 0, output => .ok output
  | _ + 1, [], _ + 1, _ => .error .overread
  | fuel + 1, control :: input, length + 1, output =>
    let l := control.toInt
    if l < 0 then
      if length = 0 ∨ cap < output.length + (-l).toNat then .error (.bugcheck 179)
      else
        match input with
        | [] => .error .overread
        | c :: input =>
          decompressLoop cap fuel input (length - 1) (output ++ List.replicate (-l).toNat c)
    else if cap < output.length + l.toNat then .error (.bugcheck 179)
    -- the literal branch checks the output only, never the input
    else if input.length < l.toNat then .error .overread
    else decompressLoop cap fuel (input.drop l.toNat) (length - l.toNat)
      (output ++ input.take l.toNat)

/-- `SQZ_decompress` into an area of `cap` bytes. The length parameter is a `USHORT`. -/
def sqzDecompress (input : List SCHAR) (length cap : Nat) : Except Fault (List SCHAR) := do
  let output ← decompressLoop cap (ushort length) input (ushort length) []
  if cap < output.length then .error (.bugcheck 179) else return output

/-! ## The measuring loop writes a token stream -/

/-- The letter `SQZ_length` writes for a token. -/
def controlByte (t : Token SCHAR) : SCHAR := Int8.ofInt t.control

/-- The limits of one control byte: 127 literal bytes, 128 repetitions. -/
abbrev Fits (t : Token SCHAR) : Prop := t.Within 127 128

/-- A control byte that is read back as it was meant. -/
abbrev Readable (t : Token SCHAR) : Prop := t.AtMost 127 128

theorem Readable.toInt_controlByte {t : Token SCHAR} (h : Readable t) :
    (controlByte t).toInt = t.control := by
  cases t with
  | literal ls =>
    have hle : ls.length ≤ 127 := h
    exact toInt_ofInt_schar (by simp only [Token.control]; omega)
      (by simp only [Token.control]; omega)
  | repeated n a =>
    obtain ⟨_, _⟩ := h
    exact toInt_ofInt_schar (by simp only [Token.control]; omega)
      (by simp only [Token.control]; omega)

/-- `s'` is `s` after writing the controls of `ts` and adding their packed size. -/
def Wrote (ts : List (Token SCHAR)) (s s' : Nat × DataComprControl) : Prop :=
  s'.1 = s.1 + size ts ∧ s'.2.controls = s.2.controls ++ ts.map controlByte

theorem Wrote.nil (s : Nat × DataComprControl) : Wrote [] s s := by simp [Wrote]

theorem Wrote.trans {ts us : List (Token SCHAR)} {s t u : Nat × DataComprControl}
    (h : Wrote ts s t) (g : Wrote us t u) : Wrote (ts ++ us) s u := by
  obtain ⟨hl, hc⟩ := h
  obtain ⟨gl, gc⟩ := g
  refine ⟨?_, ?_⟩
  · rw [gl, hl, size_append, Nat.add_assoc]
  · rw [gc, hc, map_append, append_assoc]

theorem Wrote.push (t : Token SCHAR) (s : Nat × DataComprControl) :
    Wrote [t] s (s.1 + t.size, s.2.push (controlByte t)) := by simp [Wrote]

theorem literalLoop_tokens (fuel : Nat) (ls : List SCHAR) (s : Nat × DataComprControl)
    (hfuel : ls.length ≤ fuel) :
    ∃ ts, Wrote ts s (literalLoop fuel ls.length s) ∧ expand ts = ls ∧ ∀ t ∈ ts, Fits t := by
  induction fuel generalizing ls s with
  | zero => exact ⟨[], .nil s, by simpa using hfuel, by simp⟩
  | succ fuel ih =>
    by_cases hz : ls.length = 0
    · refine ⟨[], ?_, by simpa using hz, by simp⟩
      simpa [literalLoop, hz] using Wrote.nil s
    · let t : Token SCHAR := .literal (ls.take 127)
      have ht : Fits t := by simp only [t, Token.Within, length_take]; omega
      have hlen : (ls.drop 127).length = ls.length - min ls.length 127 := by simp; omega
      obtain ⟨ts, hw, he, hf⟩ :=
        ih (ls.drop 127) (s.1 + t.size, s.2.push (controlByte t)) (by simp; omega)
      refine ⟨t :: ts, ?_, ?_, ?_⟩
      · have hstep : literalLoop (fuel + 1) ls.length s =
            literalLoop fuel (ls.drop 127).length (s.1 + t.size, s.2.push (controlByte t)) := by
          simp [literalLoop, hz, hlen, t, Token.size, Token.payload, controlByte, Token.control,
            Nat.min_comm]
        rw [hstep]
        exact (Wrote.push t s).trans hw
      · rw [expand_cons, he]
        simp [t, Token.expand]
      · simpa [ht] using hf

theorem findTriple_bound {max i : Nat} {data : List SCHAR} (h : findTriple max data = some i) :
    i + 3 ≤ data.length := by
  fun_induction findTriple max data generalizing i with
  | case1 => simp at h
  | case2 max a b c rest _ _ ih =>
    obtain ⟨j, hj, rfl⟩ := Option.map_eq_some_iff.mp h
    have := ih hj
    simp at *
    omega
  | case3 => simp_all; omega
  | case4 => simp at h

theorem runOf_le (c : SCHAR) (max : Nat) (data : List SCHAR) :
    runOf c max data ≤ max ∧ runOf c max data ≤ data.length := by
  fun_induction runOf c max data <;> grind

theorem take_runOf (c : SCHAR) (max : Nat) (data : List SCHAR) :
    data.take (runOf c max data) = replicate (runOf c max data) c := by
  fun_induction runOf c max data <;> simp_all [replicate_succ]

theorem runOf_head_pos {max : Nat} {data : List SCHAR} (hm : 0 < max) (hd : data ≠ []) :
    0 < runOf (data.headD 0) max data := by
  obtain ⟨max, rfl⟩ := Nat.exists_eq_succ_of_ne_zero hm.ne'
  cases data with
  | nil => exact absurd rfl hd
  | cons b rest => simp [runOf]

/-- One turn over a record splits it into incompressible bytes and a run, which is absent only when
nothing is left. Beyond 65535 bytes the incompressible part may end early. -/
theorem split_bound (data : List SCHAR) :
    let count := if ushort (ushort data.length - 1) > 1 then
      (findTriple (ushort (ushort data.length - 1)) data).getD (ushort data.length)
      else ushort data.length
    count ≤ data.length ∧ (count = data.length ∨ 3 ≤ (data.drop count).length) := by
  have hshort : ushort data.length ≤ data.length ∧
      (ushort data.length = data.length ∨ 3 ≤ (data.drop (ushort data.length)).length) := by
    simp only [ushort, length_drop]
    omega
  split
  · cases hf : findTriple (ushort (ushort data.length - 1)) data with
    | none => exact hshort
    | some i => have := findTriple_bound hf; simp; omega
  · exact hshort

theorem sqzLengthLoop_tokens (fuel : Nat) (data : List SCHAR) (s : Nat × DataComprControl)
    (hfuel : data.length ≤ fuel) :
    ∃ ts left, Wrote ts s (sqzLengthLoop fuel data s) ∧ expand ts ++ left = data ∧
      ushort left.length = 0 ∧ ∀ t ∈ ts, Fits t := by
  induction fuel generalizing data s with
  | zero => exact ⟨[], [], .nil s, by simpa using hfuel, rfl, by simp⟩
  | succ fuel ih =>
    by_cases hne : ushort data.length = 0
    · exact ⟨[], data, by simpa [sqzLengthLoop, hne] using Wrote.nil s, rfl, hne, by simp⟩
    obtain ⟨hcount, hrest⟩ := split_bound data
    simp only [sqzLengthLoop, if_neg hne]
    generalize hc : (if ushort (ushort data.length - 1) > 1 then
      (findTriple (ushort (ushort data.length - 1)) data).getD (ushort data.length)
      else ushort data.length) = count at hcount hrest ⊢
    -- the literals of the incompressible front
    obtain ⟨ts, hw, he, hf⟩ := literalLoop_tokens count (data.take count) s (by simp)
    rw [length_take_of_le hcount] at hw
    have hshort : ushort (min 128 (data.drop count).length) = min 128 (data.drop count).length :=
      ushort_of_lt (by omega)
    rw [hshort]
    rcases hrest with hall | hthree
    · -- nothing left behind the literals
      have hnil : data.drop count = [] := by simp [hall]
      obtain ⟨us, left, gw, ge, gl, gf⟩ := ih [] (literalLoop count count s) (by simp)
      refine ⟨ts ++ us, left, ?_, ?_, gl, ?_⟩
      · simpa [hnil] using hw.trans gw
      · rw [expand_append, he, append_assoc, ge, hall]; simp
      · exact fun t ht => (mem_append.mp ht).elim (hf t) (gf t)
    · -- a run follows; it is at least one byte long, so the fuel lasts
      have hdrop : data.drop count ≠ [] := length_pos_iff.mp (by omega)
      generalize hr : runOf ((data.drop count).headD 0) (min 128 (data.drop count).length)
        (data.drop count) = run
      have hrun : 0 < run := hr ▸ runOf_head_pos (by omega) hdrop
      obtain ⟨hr1, hr2⟩ := hr ▸ runOf_le ((data.drop count).headD 0)
        (min 128 (data.drop count).length) (data.drop count)
      have htake := hr ▸ take_runOf ((data.drop count).headD 0)
        (min 128 (data.drop count).length) (data.drop count)
      let t : Token SCHAR := .repeated run ((data.drop count).headD 0)
      have ht : Fits t := ⟨hrun, by omega⟩
      have hsub : ((data.drop count).drop run).length ≤ fuel := by
        simp only [length_drop] at *; omega
      obtain ⟨us, left, gw, ge, gl, gf⟩ := ih ((data.drop count).drop run)
        ((literalLoop count count s).1 + t.size, (literalLoop count count s).2.push (controlByte t))
        hsub
      refine ⟨ts ++ t :: us, left, ?_, ?_, gl, ?_⟩
      · rw [if_pos (by omega)]
        exact hw.trans ((Wrote.push t _).trans gw)
      · rw [expand_append, expand_cons, he, append_assoc, append_assoc, ge,
          show t.expand = (data.drop count).take run from htake.symm, take_append_drop,
          take_append_drop]
      · intro x hx
        rcases mem_append.mp hx with hx | hx
        · exact hf x hx
        · rcases mem_cons.mp hx with rfl | hx
          · exact ht
          · exact gf x hx

theorem sqzLength_tokens (data : List SCHAR) :
    ∃ ts left, (sqzLength data).1 = size ts ∧ (sqzLength data).2.controls = ts.map controlByte ∧
      expand ts ++ left = data ∧ ushort left.length = 0 ∧ ∀ t ∈ ts, Fits t := by
  obtain ⟨ts, left, ⟨hl, hc⟩, he, hleft, hf⟩ := sqzLengthLoop_tokens _ data (0, .start) le_rfl
  exact ⟨ts, left, by simpa [sqzLength] using hl, by simpa [sqzLength] using hc, he, hleft, hf⟩

theorem sqzLength_whole {data : List SCHAR} (hlen : data.length ≤ 65535) :
    ∃ ts, (sqzLength data).1 = size ts ∧ (sqzLength data).2.controls = ts.map controlByte ∧
      expand ts = data ∧ ∀ t ∈ ts, Fits t := by
  obtain ⟨ts, left, hl, hc, he, hleft, hf⟩ := sqzLength_tokens data
  have hle : left.length ≤ data.length := by simp [← he]
  have hnil : left = [] := by
    rw [ushort_of_lt (by omega)] at hleft
    exact eq_nil_of_length_eq_zero hleft
  exact ⟨ts, hl, hc, by simpa [hnil] using he, hf⟩

theorem fastBlock_append (cs ds input : List SCHAR) :
    fastBlock (cs ++ ds) input = (fastBlock cs input).bind fun (out, left) =>
      (fastBlock ds left).map fun (out', left') => (out ++ out', left') := by
  induction cs generalizing input with
  | nil => simp [fastBlock]
  | cons c cs ih =>
    simp only [cons_append, fastBlock]
    split
    · cases input with
      | nil => rfl
      | cons b rest =>
        dsimp only
        split
        · rfl
        · rw [ih]; simp [Function.comp_def, Option.bind_map]
    · split
      · split
        · rfl
        · rw [ih]; simp [Function.comp_def, Option.bind_map]
      · rw [ih]; simp [Function.comp_def, Option.bind_map]

theorem fastChain_eq (bs : List (List SCHAR)) (input : List SCHAR) :
    fastChain bs input = (fastBlock bs.flatten input).map (·.1) := by
  induction bs generalizing input with
  | nil => rfl
  | cons b bs ih =>
    simp only [fastChain, flatten_cons, fastBlock_append, ih]
    cases fastBlock b input with
    | none => rfl
    | some p => cases h : fastBlock bs.flatten p.2 <;> simp [h]

theorem fastBlock_literal {control : SCHAR} {ls : List SCHAR} (hc : control.toInt = ls.length)
    (hpos : 0 < ls.length) (cs left : List SCHAR) :
    fastBlock (control :: cs) (ls ++ left) =
      (fastBlock cs left).map fun (out, left) => (control :: (ls ++ out), left) := by
  have hlt : ¬ (ls.length : Int) < 0 := by omega
  simp [fastBlock, hc, hlt, length_pos_iff.mp hpos]

theorem fastBlock_repeated {control a : SCHAR} {n : Nat} (hc : control.toInt = -n)
    (hpos : 0 < n) (cs left : List SCHAR) :
    fastBlock (control :: cs) (replicate n a ++ left) =
      (fastBlock cs left).map fun (out, left) => (control :: a :: out, left) := by
  have hneg : -(n : Int) < 0 := by omega
  obtain ⟨m, rfl⟩ : ∃ m, n = m + 1 := ⟨n - 1, by omega⟩
  have hn : (-(-((m + 1 : Nat) : Int))).toNat = m + 1 := by omega
  have hdrop : (a :: (replicate m a ++ left)).drop (m + 1) = left := by simp
  simp only [fastBlock, hc, if_pos hneg, hn, replicate_succ, cons_append, hdrop]
  rw [if_neg (by simp)]

theorem fastBlock_tokens (ts : List (Token SCHAR)) (left : List SCHAR) (h : ∀ t ∈ ts, Fits t) :
    fastBlock (ts.map controlByte) (expand ts ++ left) = some (encode Int8.ofInt ts, left) := by
  induction ts with
  | nil => rfl
  | cons t ts ih =>
    have ht := h t (by simp)
    have ih := ih fun u hu => h u (by simp [hu])
    have hc := Readable.toInt_controlByte ht.atMost
    rw [map_cons, expand_cons, append_assoc, encode_cons]
    cases t with
    | literal ls =>
      rw [Token.expand, fastBlock_literal hc ht.1, ih]
      rfl
    | repeated n a =>
      rw [Token.expand, fastBlock_repeated hc ht.1, ih]
      rfl

theorem sqzFast_tokens {dcc : DataComprControl} {ts : List (Token SCHAR)}
    (hc : dcc.controls = ts.map controlByte) (h : ∀ t ∈ ts, Fits t) :
    sqzFast dcc (expand ts) = some (encode Int8.ofInt ts) := by
  have hb := fastBlock_tokens ts [] h
  rw [append_nil] at hb
  rw [sqzFast, fastChain_eq, ← DataComprControl.controls, hc, hb]
  rfl

theorem decompressLoop_tokens (cap fuel : Nat) (ts : List (Token SCHAR)) (output : List SCHAR)
    (hfuel : size ts ≤ fuel) (h : ∀ t ∈ ts, Readable t)
    (hcap : output.length + (expand ts).length ≤ cap) :
    decompressLoop cap fuel (encode Int8.ofInt ts) (size ts) output = .ok
      (output ++ expand ts) := by
  induction ts generalizing fuel output with
  | nil => cases fuel <;> simp [decompressLoop]
  | cons t ts ih =>
    have ht := h t (by simp)
    have ih := fun fuel output hf hc => ih fuel output hf (fun u hu => h u (by simp [hu])) hc
    have hc : (Int8.ofInt t.control).toInt = t.control := Readable.toInt_controlByte ht
    rw [size_cons] at hfuel
    obtain ⟨fuel, rfl⟩ : ∃ f, fuel = f + 1 := ⟨fuel - 1, by simp only [Token.size] at hfuel; omega⟩
    rw [expand_cons, length_append] at hcap
    have hsize : size (t :: ts) = t.payload.length + size ts + 1 := by
      simp [Token.size]; omega
    simp only [encode_cons, hsize, decompressLoop, hc]
    cases t with
    | literal ls =>
      simp only [Token.expand, Token.size] at hcap hfuel
      have hroom : ¬ cap < output.length + ls.length := by omega
      have hlt : ¬ (ls.length : Int) < 0 := by omega
      have := ih fuel (output ++ ls) (by omega) (by simp; omega)
      simpa [Token.control, Token.payload, Token.expand, hroom, hlt] using this
    | repeated n a =>
      simp only [Token.expand, Token.size, Token.payload, length_replicate] at hcap hfuel
      have hpos : 0 < n := ht.1
      have hroom : ¬ cap < output.length + n := by omega
      have := ih fuel (output ++ replicate n a) (by simp at hfuel; omega) (by simp; omega)
      simpa [Token.control, Token.payload, Token.expand, hpos, hroom] using this

theorem sqzDecompress_tokens (ts : List (Token SCHAR)) (cap : Nat) (h : ∀ t ∈ ts, Readable t)
    (hsize : size ts ≤ 65535) (hcap : (expand ts).length ≤ cap) :
    sqzDecompress (encode Int8.ofInt ts) (size ts) cap = .ok (expand ts) := by
  have hs : ushort (size ts) = size ts := ushort_of_lt (by omega)
  have hloop := decompressLoop_tokens cap (size ts) ts [] le_rfl h (by simpa using hcap)
  simp only [sqzDecompress, hs, hloop]
  change (if cap < (expand ts).length then _ else _) = _
  rw [if_neg (by omega)]
  rfl

/-- Packing writes exactly the measured number of bytes, and unpacking exactly those bytes
gives the record back, as long as their number fits the `USHORT` that `SQZ_decompress`
takes it in. -/
theorem sqz_roundtrip (data : List SCHAR) (hlen : data.length ≤ 65535) :
    ∃ out, sqzFast (sqzLength data).2 data = some out ∧ out.length = (sqzLength data).1 ∧
      ((sqzLength data).1 ≤ 65535 →
        ∀ cap, data.length ≤ cap → sqzDecompress out (sqzLength data).1 cap = .ok data) := by
  obtain ⟨ts, hl, hc, rfl, hf⟩ := sqzLength_whole hlen
  refine ⟨encode Int8.ofInt ts, sqzFast_tokens hc hf, by rw [hl, length_encode], ?_⟩
  intro hfit cap hcap
  rw [hl] at hfit ⊢
  exact sqzDecompress_tokens ts cap (fun t ht => (hf t ht).atMost) hfit hcap

theorem sqz_roundtrip_hello :
    ∃ out, sqzFast (sqzLength [7, 7, 7, 7, 1]).2 [7, 7, 7, 7, 1] = some out ∧
      out.length = (sqzLength [7, 7, 7, 7, 1]).1 ∧
      sqzDecompress out (sqzLength [7, 7, 7, 7, 1]).1 5 = .ok [7, 7, 7, 7, 1] := by
  obtain ⟨out, hout, hlen, hback⟩ := sqz_roundtrip [7, 7, 7, 7, 1] (by decide)
  exact ⟨out, hout, hlen, hback (by decide) 5 (by decide)⟩

theorem literalLoop_length (fuel count : Nat) (s : Nat × DataComprControl) (h : count ≤ fuel) :
    (literalLoop fuel count s).1 = s.1 + count + (count + 126) / 127 := by
  induction fuel generalizing count s with
  | zero => obtain rfl : count = 0 := by omega
            simp [literalLoop]
  | succ fuel ih =>
    by_cases hz : count = 0
    · simp [literalLoop, hz]
    · simp only [literalLoop, if_neg hz]
      rw [ih _ _ (by omega)]
      omega

def alternate (a b : SCHAR) : Nat → List SCHAR
  | 0 => []
  | n + 1 => a :: alternate b a n

@[simp] theorem length_alternate (a b : SCHAR) (n : Nat) : (alternate a b n).length = n := by
  induction n generalizing a b <;> simp_all [alternate]

theorem findTriple_alternate {a b : SCHAR} (h : a ≠ b) (max n : Nat) :
    findTriple max (alternate a b n) = none := by
  induction n generalizing max a b with
  | zero => cases max <;> simp [alternate, findTriple]
  | succ n ih =>
    match max, n with
    | 0, _ => simp [findTriple]
    | _ + 1, 0 => simp [alternate, findTriple]
    | _ + 1, 1 => simp [alternate, findTriple]
    | max + 1, n + 2 =>
      have := ih h.symm max
      simp only [alternate, findTriple] at this ⊢
      simp [h, this]

theorem sqzLength_alternate {n : Nat} (hn : n ≤ 65535) :
    (sqzLength (alternate 0 1 n)).1 = n + (n + 126) / 127 := by
  have hne : (0 : SCHAR) ≠ 1 := by decide
  cases n with
  | zero => rfl
  | succ n =>
    have hs : ushort (n + 1) = n + 1 := ushort_of_lt (by omega)
    have hnil : (alternate 0 1 (n + 1)).drop (n + 1) = [] := by simp
    have hdone : ∀ s, sqzLengthLoop n [] s = s := by
      intro s; cases n <;> simp [sqzLengthLoop, ushort]
    simp only [sqzLength, length_alternate, sqzLengthLoop, hs, findTriple_alternate hne,
      Option.getD_none, ite_self, hnil]
    simp [hdone, ushort, literalLoop_length]

/-- 512 full literals pack to 65536 bytes, which the length parameter reads as zero. -/
theorem sqz_roundtrip_truncated :
    ¬ ∀ data : List SCHAR, data.length ≤ 65535 →
      ∃ out, sqzFast (sqzLength data).2 data = some out ∧ out.length = (sqzLength data).1 ∧
        ∀ cap, data.length ≤ cap → sqzDecompress out (sqzLength data).1 cap = .ok data := by
  intro h
  obtain ⟨n, hn⟩ : ∃ n, n = 65024 := ⟨_, rfl⟩
  obtain ⟨out, _, _, hback⟩ := h (alternate 0 1 n) (by simp; omega)
  have hback := hback n (by simp)
  have hpacked : n + (n + 126) / 127 = 65536 := by omega
  rw [sqzLength_alternate (by omega), hpacked] at hback
  injection hback with heq
  have hlen := congrArg List.length heq
  rw [length_alternate, length_nil] at hlen
  omega

end Firebird.Sqz
