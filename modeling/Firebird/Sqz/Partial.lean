import Firebird.Sqz.Compress

/-!
# Packing a part of a record

A record too big for its page is stored in fragments. `SQZ_compress` packs as much of it as an
area of known length takes and returns the number of bytes that went in;
`SQZ_compress_length` finds the same number without writing anything.
-/
namespace Firebird.Sqz
open Lib RunLength List

/-- A control block is used up, or the call returns from inside it. -/
inductive Turn (α : Type) where
  | next (state : α)
  | done (state : α)

/-- The variables of `SQZ_compress`: the bytes written, `input - start`, the record from `input`
on, and `space`. -/
structure Pack where
  output : List SCHAR
  taken : Nat
  input : List SCHAR
  space : Int

/-- One control block of `SQZ_compress`. Bit 7 of a control is its sign. -/
def compressBlock : List SCHAR → Pack → Except Fault (Turn Pack)
  | [], s => .ok (.next s)
  | control :: rest, s =>
    let space := s.space - 1
    if space ≤ 0 then
      .ok (.done { s with output := if space = 0 then s.output ++ [0] else s.output, space })
    else
      let length := control.toInt
      if length < 0 then
        match s.input with
        | [] => .error .overread
        | c :: _ =>
          let n := ((-length) % 256).toNat
          compressBlock rest ⟨s.output ++ [control, c], s.taken + n, s.input.drop n, space - 1⟩
      else
        let left := space - length
        if left < 0 then
          -- the control already written gets the length that fits
          let n := (length + left).toNat
          if s.input.length < n then .error .overread
          else .ok (.done ⟨s.output ++ Int8.ofInt (length + left) :: s.input.take n, s.taken + n,
            s.input.drop n, left⟩)
        else if s.input.length < length.toNat then .error .overread
        else compressBlock rest ⟨s.output ++ control :: s.input.take length.toNat,
          s.taken + length.toNat, s.input.drop length.toNat, left⟩

/-- The walk along `dcc_next`. -/
def compressChain : List (List SCHAR) → Pack → Except Fault Pack
  | [], _ => .error (.bugcheck 178)
  | block :: next, s => do
    match ← compressBlock block s with
    | .next s => compressChain next s
    | .done s => return s

/-- `SQZ_compress`: what is written to the output area, and the `USHORT` returned. -/
def sqzCompress (dcc : DataComprControl) (input : List SCHAR) (space : Int) :
    Except Fault (List SCHAR × Nat) := do
  let s ← compressChain dcc.blocks ⟨[], 0, input, space⟩
  return (s.output, ushort s.taken)

/-- One control block of `SQZ_compress_length`, over `input - start` and `space`. -/
def compressLengthBlock : List SCHAR → Nat × Int → Turn (Nat × Int)
  | [], s => .next s
  | control :: rest, (taken, space) =>
    let space := space - 1
    if space ≤ 0 then .done (taken, space)
    else
      let length := control.toInt
      if length < 0 then compressLengthBlock rest (taken + ((-length) % 256).toNat, space - 1)
      else
        let left := space - length
        if left < 0 then .done (taken + (length + left).toNat, left)
        else compressLengthBlock rest (taken + length.toNat, left)

def compressLengthChain : List (List SCHAR) → Nat × Int → Except Fault (Nat × Int)
  | [], _ => .error (.bugcheck 178)
  | block :: next, s =>
    match compressLengthBlock block s with
    | .next s => compressLengthChain next s
    | .done s => .ok s

def sqzCompressLength (dcc : DataComprControl) (space : Int) : Except Fault Nat := do
  let s ← compressLengthChain dcc.blocks (0, space)
  return ushort s.1

def Turn.counted : Turn Pack → Turn (Nat × Int)
  | .next s => .next (s.taken, s.space)
  | .done s => .done (s.taken, s.space)

theorem compressLengthBlock_eq {cs : List SCHAR} {s : Pack} {t : Turn Pack}
    (h : compressBlock cs s = .ok t) : compressLengthBlock cs (s.taken, s.space) = t.counted := by
  fun_induction compressBlock cs s with
  | case1 s =>
    cases h
    rfl
  | case2 control rest s space hspace =>
    cases h
    rw [compressLengthBlock, if_pos hspace]
    rfl
  | case3 => simp at h
  | case4 control rest s space hspace length hneg c tail hinput n ih =>
    rw [compressLengthBlock, if_neg hspace, if_pos hneg]
    exact ih h
  | case5 => simp at h
  | case6 control rest s space hspace length hneg left hleft n hfit =>
    cases h
    rw [compressLengthBlock, if_neg hspace, if_neg hneg, if_pos hleft]
    rfl
  | case7 => simp at h
  | case8 control rest s space hspace length hneg left hleft hfit ih =>
    rw [compressLengthBlock, if_neg hspace, if_neg hneg, if_neg hleft]
    exact ih h

theorem compressLengthChain_eq {bs : List (List SCHAR)} {s p : Pack}
    (h : compressChain bs s = .ok p) :
    compressLengthChain bs (s.taken, s.space) = .ok (p.taken, p.space) := by
  induction bs generalizing s with
  | nil => simp [compressChain] at h
  | cons block next ih =>
    cases hb : compressBlock block s with
    | error e => simp [compressChain, hb, bind, Except.bind] at h
    | ok t =>
      rw [compressLengthChain, compressLengthBlock_eq hb]
      cases t with
      | next s' =>
        rw [compressChain, hb] at h
        exact ih h
      | done s' =>
        rw [compressChain, hb] at h
        cases h
        rfl

theorem sqzCompressLength_eq {dcc : DataComprControl} {input out : List SCHAR} {space : Int}
    {n : Nat} (h : sqzCompress dcc input space = .ok (out, n)) :
    sqzCompressLength dcc space = .ok n := by
  cases hc : compressChain dcc.blocks ⟨[], 0, input, space⟩ with
  | error e => simp [sqzCompress, hc] at h
  | ok s =>
    have hl := compressLengthChain_eq hc
    simp only [sqzCompress, hc, bind, Except.bind, pure, Except.pure, Except.ok.injEq,
      Prod.mk.injEq] at h
    simp [sqzCompressLength, hl, bind, Except.bind, pure, Except.pure, h.2]

def Turn.follow (f : Pack → Except Fault (Turn Pack)) : Turn Pack → Except Fault (Turn Pack)
  | .next s => f s
  | .done s => .ok (.done s)

theorem compressBlock_append (cs ds : List SCHAR) (s : Pack) :
    compressBlock (cs ++ ds) s = (compressBlock cs s).bind (Turn.follow (compressBlock ds)) := by
  fun_induction compressBlock cs s with
  | case1 s => rfl
  | case2 control rest s space hspace =>
    rw [cons_append, compressBlock, if_pos hspace]
    rfl
  | case3 control rest s space hspace length hneg hinput =>
    rw [cons_append, compressBlock, if_neg hspace, if_pos hneg]
    simp only [hinput]
    rfl
  | case4 control rest s space hspace length hneg c tail hinput n ih =>
    rw [cons_append, compressBlock, if_neg hspace, if_pos hneg, ← ih]
    simp only [hinput]
    rfl
  | case5 control rest s space hspace length hneg left hleft n hfit =>
    rw [cons_append, compressBlock, if_neg hspace, if_neg hneg, if_pos hleft, if_pos hfit]
    rfl
  | case6 control rest s space hspace length hneg left hleft n hfit =>
    rw [cons_append, compressBlock, if_neg hspace, if_neg hneg, if_pos hleft, if_neg hfit]
    rfl
  | case7 control rest s space hspace length hneg left hleft hfit =>
    rw [cons_append, compressBlock, if_neg hspace, if_neg hneg, if_neg hleft, if_pos hfit]
    rfl
  | case8 control rest s space hspace length hneg left hleft hfit ih =>
    rw [cons_append, compressBlock, if_neg hspace, if_neg hneg, if_neg hleft, if_neg hfit, ih]

theorem compressChain_of_flatten {bs : List (List SCHAR)} {s p : Pack}
    (h : compressBlock bs.flatten s = .ok (.done p)) : compressChain bs s = .ok p := by
  induction bs generalizing s with
  | nil => simp [compressBlock] at h
  | cons block next ih =>
    rw [flatten_cons, compressBlock_append] at h
    cases hb : compressBlock block s with
    | error e => simp [hb, Except.bind] at h
    | ok t =>
      rw [hb] at h
      rw [compressChain, hb]
      cases t with
      | next s' => exact ih h
      | done s' =>
        simp only [Except.bind, Turn.follow] at h
        rw [h]
        rfl

theorem toNat_neg_mod {n : Nat} (h : n ≤ 128) : ((- -(n : Int)) % 256).toNat = n := by omega

theorem compressBlock_tokens (ts : List (Token SCHAR)) (left : List SCHAR) (s : Pack) (space : Nat)
    (h : ∀ t ∈ ts, Fits t) (hinput : s.input = expand ts ++ left) (hspace : s.space = space)
    (hlt : space < size ts) :
    ∃ p, compressBlock (ts.map controlByte) s = .ok (.done p) ∧
      p.output = s.output ++ encode Int8.ofInt (cut space ts) ∧
      p.taken = s.taken + (expand (cut space ts)).length := by
  induction ts generalizing s space with
  | nil => simp at hlt
  | cons t ts ih =>
    obtain ⟨ht, hts⟩ := forall_mem_cons.mp h
    have hc := Readable.toInt_controlByte ht.atMost
    rw [map_cons, compressBlock, hspace]
    match space with
    | 0 =>
      exact ⟨_, rfl, by simp [cut], by simp [cut]⟩
    | 1 =>
      exact ⟨_, rfl, by simp [cut, Token.control, Token.payload], by simp [cut, Token.expand]⟩
    | space + 2 =>
      rw [if_neg (by omega)]
      rw [size_cons] at hlt
      cases t with
      | repeated n a =>
        obtain ⟨hpos, hle⟩ := ht
        simp only [Token.size, Token.payload, length_singleton] at hlt
        obtain ⟨m, rfl⟩ : ∃ m, n = m + 1 := ⟨n - 1, by omega⟩
        have hin : s.input = a :: (replicate m a ++ (expand ts ++ left)) := by
          rw [hinput, expand_cons, Token.expand, replicate_succ]
          simp
        obtain ⟨p, hp, hout, htaken⟩ := ih
          ⟨s.output ++ [controlByte (.repeated (m + 1) a), a], s.taken + (m + 1),
            s.input.drop (m + 1), (space : Int)⟩ space hts (by simp [hin]) rfl (by omega)
        refine ⟨p, ?_, ?_, ?_⟩
        · have hc : (controlByte (.repeated (m + 1) a)).toInt = -((m + 1 : Nat) : Int) := hc
          have hsub : ((space + 2 : Nat) : Int) - 1 - 1 = space := by omega
          rw [hin] at hp ⊢
          rw [hc, if_pos (by omega), toNat_neg_mod hle, hsub]
          exact hp
        · rw [hout]
          simp [cut, Token.payload, controlByte]
        · rw [htaken]
          simp [cut, Token.expand]
          omega
      | literal ls =>
        simp only [Token.size, Token.payload] at hlt
        have hin : s.input = ls ++ (expand ts ++ left) := by
          rw [hinput, expand_cons, Token.expand, append_assoc]
        have hc : (controlByte (.literal ls)).toInt = (ls.length : Int) := hc
        rw [hc, if_neg (by omega)]
        by_cases hfit : ls.length ≤ space + 1
        · obtain ⟨p, hp, hout, htaken⟩ := ih
            ⟨s.output ++ controlByte (.literal ls) :: ls, s.taken + ls.length,
              expand ts ++ left, ((space + 1 - ls.length : Nat) : Int)⟩
            (space + 1 - ls.length) hts rfl rfl (by omega)
          refine ⟨p, ?_, ?_, ?_⟩
          · rw [if_neg (by omega), if_neg (by simp [hin]), ← hp]
            congr 1
            simp only [hin, Int.toNat_natCast, take_left, drop_left, Pack.mk.injEq, true_and]
            omega
          · rw [hout]
            simp [cut, hfit, Token.payload, controlByte]
          · rw [htaken]
            simp [cut, hfit, Token.expand]
            omega
        · have hn : ((ls.length : Int) + ((space + 2 : Nat) - 1 - ls.length)).toNat = space +
            1 := by
            omega
          have hz : (ls.length : Int) + ((space + 2 : Nat) - 1 - ls.length) =
            (space + 1 : Nat) := by
            omega
          have hmin : min (space + 1) ls.length = space + 1 := by omega
          have htake : s.input.take (space + 1) = ls.take (space + 1) := by
            rw [hin, take_append_of_le_length (by omega)]
          rw [if_pos (by omega), hn, if_neg (by simp only [hin, length_append]; omega), hz, htake]
          refine ⟨_, rfl, ?_, ?_⟩
          · simp [cut, hfit, Token.payload, Token.control, hmin]
          · simp [cut, hfit, Token.expand, hmin]

theorem sqzCompress_tokens {dcc : DataComprControl} {ts : List (Token SCHAR)}
    (hc : dcc.controls = ts.map controlByte) (h : ∀ t ∈ ts, Fits t) (left : List SCHAR)
    {space : Nat} (hlt : space < size ts) :
    sqzCompress dcc (expand ts ++ left) space =
      .ok (encode Int8.ofInt (cut space ts), ushort (expand (cut space ts)).length) := by
  obtain ⟨p, hp, hout, htaken⟩ :=
    compressBlock_tokens ts left ⟨[], 0, expand ts ++ left, space⟩ space h rfl rfl hlt
  rw [← hc] at hp
  have hchain := compressChain_of_flatten hp
  simp [sqzCompress, hchain, bind, Except.bind, pure, Except.pure, hout, htaken]

/-- With less space than the whole record needs, `SQZ_compress` fills the space and returns the
number `n` of bytes packed, as `SQZ_compress_length` does, and unpacking the space gives the first
`n` bytes of the record. The number is returned in a `USHORT`, and only a space that fits one can be
unpacked. -/
theorem sqz_compress_partial (data : List SCHAR) (space : Nat)
    (hspace : space < (sqzLength data).1) :
    ∃ out n, sqzCompress (sqzLength data).2 data space = .ok (out, ushort n) ∧
      sqzCompressLength (sqzLength data).2 space = .ok (ushort n) ∧
      out.length = space ∧ n ≤ data.length ∧
      (space ≤ 65535 → ∀ cap, n ≤ cap → sqzDecompress out space cap = .ok (data.take n)) := by
  obtain ⟨ts, left, hl, hc, rfl, -, hf⟩ := sqzLength_tokens data
  rw [hl] at hspace
  have hpack := sqzCompress_tokens hc hf left hspace
  have hsize : size (cut space ts) = space := size_cut hspace.le
  have hpre := expand_cut space ts
  refine ⟨_, _, hpack, sqzCompressLength_eq hpack, ?_, ?_, ?_⟩
  · rw [length_encode, hsize]
  · rw [length_append]
    exact hpre.length_le.trans (Nat.le_add_right _ _)
  · intro hfit cap hcap
    have hback := sqzDecompress_tokens (cut space ts) cap (atMost_cut hf) (by omega) hcap
    rw [hsize] at hback
    rw [hback, take_append_of_le_length hpre.length_le, ← prefix_iff_eq_take.mp hpre]

theorem sqz_compress_partial_six :
    4 < (sqzLength [7, 7, 7, 7, 1, 2, 3]).1 ∧
    ∃ out n, sqzCompress (sqzLength [7, 7, 7, 7, 1, 2, 3]).2 [7, 7, 7, 7, 1, 2, 3] 4 =
        .ok (out, ushort n) ∧
      sqzCompressLength (sqzLength [7, 7, 7, 7, 1, 2, 3]).2 4 = .ok (ushort n) ∧
      out.length = 4 ∧ sqzDecompress out 4 7 = .ok (List.take n [7, 7, 7, 7, 1, 2, 3]) := by
  obtain ⟨out, n, hpack, hlen, hout, hn, hback⟩ :=
    sqz_compress_partial [7, 7, 7, 7, 1, 2, 3] 4 (by decide)
  exact ⟨by decide, out, n, hpack, hlen, hout, hback (by decide) 7 hn⟩

/-- 65536 bytes of space can be filled but not unpacked. -/
theorem sqz_compress_partial_truncated :
    ¬ ∀ (data : List SCHAR) (space : Nat), data.length ≤ 65535 → space < (sqzLength data).1 →
      ∃ out n, sqzCompress (sqzLength data).2 data space = .ok (out, n) ∧
        sqzCompressLength (sqzLength data).2 space = .ok n ∧ out.length ≤ space ∧
        ∀ cap, n ≤ cap → sqzDecompress out space cap = .ok (data.take n) := by
  intro h
  obtain ⟨m, hm⟩ : ∃ m, m = 65535 := ⟨_, rfl⟩
  have hsize : 65536 < (sqzLength (alternate 0 1 m)).1 := by
    rw [sqzLength_alternate (by omega)]
    omega
  obtain ⟨out, n, hpack, -, -, hback⟩ := h (alternate 0 1 m) 65536 (by simp; omega) hsize
  have hempty : sqzDecompress out 65536 n = .ok [] := by
    simp [sqzDecompress, ushort, decompressLoop, bind, Except.bind, pure, Except.pure]
  have htake := (Except.ok.inj ((hback n le_rfl).symm.trans hempty))
  -- at least one byte went in, so `n` is not zero
  obtain ⟨ts, hl, hc, he, hf⟩ := @sqzLength_whole (alternate 0 1 m) (by simp; omega)
  have hpack' := @sqzCompress_tokens _ ts hc hf [] 65536 (by omega)
  rw [append_nil, he, hpack] at hpack'
  simp only [Except.ok.injEq, Prod.mk.injEq] at hpack'
  have hle := (expand_cut 65536 ts).length_le
  rw [he, length_alternate] at hle
  rw [ushort_of_lt (by omega)] at hpack'
  cases ts with
  | nil => simp at hl; omega
  | cons t ts =>
    have hne : expand (cut 65536 (t :: ts)) ≠ [] := expand_cut_ne_nil (hf t (by simp)) ts
    have hpos := length_pos_iff.mpr hne
    have hlen := congrArg List.length htake
    rw [length_take, length_alternate, length_nil, hpack'.2] at hlen
    omega

end Firebird.Sqz
