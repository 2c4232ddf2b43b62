import Firebird.Machine
import Mathlib.Data.List.Basic
import Mathlib.Data.List.TakeWhile

/-!
# Run-length coding of records in a backup

`compress` of `backup.epp` and `decompress` of `restore.epp`. What is still to be compressed is the
list of the bytes from `p` on; a control byte goes with the bytes that are put behind it.
-/
namespace Firebird.Burp

open List

structure Chunk where
  control : UInt8
  block : List UInt8

def bytes (chunks : List Chunk) : List UInt8 := chunks.flatMap fun c => c.control :: c.block

def findTriple : List UInt8 → Nat
  | a :: b :: c :: rest => if a ≠ b ∨ b ≠ c then findTriple (b :: c :: rest) + 1 else 0
  | data => data.length

def putBlocks (run : Nat) (data : List UInt8) : List Chunk × List UInt8 :=
  if 127 < run then
    let r := putBlocks (run - 127) (data.drop 127)
    (⟨127, data.take 127⟩ :: r.1, r.2)
  else if run ≠ 0 then ([⟨UInt8.ofNat run, data.take run⟩], data.drop run)
  else ([], data)
  termination_by run
  decreasing_by exact Nat.sub_lt (Nat.zero_lt_of_lt ‹_›) (Nat.zero_lt_succ _)

def putRuns (run : Nat) (c : UInt8) : List Chunk :=
  if 127 < run then ⟨UInt8.ofInt (-127), [c]⟩ :: putRuns (run - 127) c
  else if run ≠ 0 then [⟨UInt8.ofInt (-run), [c]⟩]
  else []
  termination_by run
  decreasing_by exact Nat.sub_lt (Nat.zero_lt_of_lt ‹_›) (Nat.zero_lt_succ _)

def equalRun : List UInt8 → Nat
  | [] => 0
  | c :: data => (data.takeWhile (· = c)).length + 1

def compressStep (data : List UInt8) : List Chunk × List UInt8 :=
  let (blocks, data) := putBlocks (ushort (findTriple data)) data
  let run := ushort (equalRun data)
  if run ≠ 0 then (blocks ++ putRuns run data.headI, data.drop (equalRun data)) else (blocks, data)

/-- `compress`, or nothing if it takes more turns. -/
def compress : Nat → List UInt8 → Option (List Chunk)
  | _, [] => some []
  | 0, _ => none
  | turns + 1, data =>
    (compress turns (compressStep data).2).map ((compressStep data).1 ++ ·)

theorem compress_succ (turns : Nat) {data : List UInt8} (hne : data ≠ []) :
    compress (turns + 1) data = (compress turns (compressStep data).2).map
      ((compressStep data).1 ++ ·) := by
  cases data with
  | nil => exact absurd rfl hne
  | cons => rfl

/-- What has been put into the buffer, what is left of the backup, and whether one of the messages
202 and 34 was given. -/
structure Decompressed where
  data : List UInt8
  rest : List UInt8
  adjusted : Bool
  lengthError : Bool

def Decompressed.behind (r : Decompressed) (data : List UInt8) (adjusted : Bool) : Decompressed :=
  { r with data := data ++ r.data, adjusted := adjusted || r.adjusted }

/-- `decompress`, where `room` is `end - p`, or nothing if the backup ends. -/
def decompress (room : Int) : List UInt8 → Option Decompressed
  | [] => if 0 < room then none else some ⟨[], [], false, decide (room < 0)⟩
  | control :: stream =>
    if 0 < room then
      let count := control.toInt8.toInt
      if 0 < count then
        let n := min room count
        if stream.length < n then none
        else (decompress (room - n) (stream.drop n.toNat)).map
          (·.behind (stream.take n.toNat) (room < count))
      else if count < 0 then
        match stream with
        | [] => none
        | c :: stream =>
          let n := min room (-count)
          (decompress (room - n) stream).map (·.behind (replicate n.toNat c) (room + count < 0))
      else decompress room stream
    else some ⟨[], control :: stream, false, decide (room < 0)⟩
  termination_by stream => stream.length
  decreasing_by all_goals simp; try omega

def Chunk.count (c : Chunk) : Int := c.control.toInt8.toInt

/-- The control byte says what follows: so many bytes, or one byte for so many. -/
def Chunk.Valid (c : Chunk) : Prop :=
  (1 ≤ c.count ∧ c.count ≤ 127 ∧ c.block.length = c.count) ∨
    (-127 ≤ c.count ∧ c.count ≤ -1 ∧ c.block.length = 1)

def Chunk.data (c : Chunk) : List UInt8 :=
  if 0 < c.count then c.block else replicate (-c.count).toNat c.block.headI

def expand (chunks : List Chunk) : List UInt8 := chunks.flatMap Chunk.data

variable {n : Nat}

theorem count_ofNat (h : n ≤ 127) (block : List UInt8) :
    (Chunk.mk (UInt8.ofNat n) block).count = n := by
  have hall : ∀ n : Fin 128, (UInt8.ofNat n).toInt8.toInt = n := by decide
  exact hall ⟨n, by omega⟩

theorem count_ofInt (h : n ≤ 127) (block : List UInt8) :
    (Chunk.mk (UInt8.ofInt (-n)) block).count = -n := by
  have hall : ∀ n : Fin 128, (UInt8.ofInt (-(n : Nat))).toInt8.toInt = -(n : Nat) := by decide
  exact hall ⟨n, by omega⟩

variable {run : Nat} {c : UInt8} {data rest : List UInt8}

theorem putBlocks_spec (h : run ≤ data.length) : (∀ k ∈ (putBlocks run data).1, k.Valid) ∧
    expand (putBlocks run data).1 = data.take run ∧ (putBlocks run data).2 = data.drop run := by
  induction run, data using putBlocks.induct with
  | case1 run data hlong ih =>
    obtain ⟨hvalid, hdata, hrest⟩ := ih (by rw [length_drop]; omega)
    have hcount : (Chunk.mk 127 (data.take 127)).count = (127 : Nat) :=
      count_ofNat (Nat.le_refl _) _
    have hsum : 127 + (run - 127) = run := by omega
    rw [putBlocks, if_pos hlong]
    refine ⟨forall_mem_cons.2 ⟨.inl ?_, hvalid⟩, ?_, ?_⟩
    · rw [hcount, length_take]
      omega
    · have hsplit := take_add (l := data) (i := 127) (j := run - 127)
      rw [hsum] at hsplit
      rw [expand, flatMap_cons, Chunk.data, if_pos (by rw [hcount]; decide), ← expand, hdata,
        hsplit]
    · rw [hrest, drop_drop, hsum]
  | case2 run data hshort hne =>
    have hcount := count_ofNat (Nat.not_lt.1 hshort) (data.take run)
    rw [putBlocks, if_neg hshort, if_pos hne]
    refine ⟨forall_mem_cons.2 ⟨.inl ?_, by simp⟩, ?_, rfl⟩
    · rw [hcount, length_take]
      omega
    · rw [expand, flatMap_cons, flatMap_nil, append_nil, Chunk.data, if_pos (by rw [hcount]; omega)]
  | case3 run data hshort hzero =>
    obtain rfl : run = 0 := by omega
    rw [putBlocks, if_neg hshort, if_neg hzero]
    exact ⟨by simp, rfl, rfl⟩

theorem putRuns_spec : (∀ k ∈ putRuns run c, k.Valid) ∧
    expand (putRuns run c) = replicate run c := by
  induction run using putRuns.induct with
  | case1 run hlong ih =>
    obtain ⟨hvalid, hdata⟩ := ih
    have hcount : (Chunk.mk (UInt8.ofInt (-127)) [c]).count = -(127 : Nat) :=
      count_ofInt (Nat.le_refl _) _
    rw [putRuns, if_pos hlong]
    refine ⟨forall_mem_cons.2 ⟨.inr ?_, hvalid⟩, ?_⟩
    · rw [hcount]
      exact ⟨by decide, by decide, rfl⟩
    · have hsplit : run = 127 + (run - 127) := by omega
      rw [expand, flatMap_cons, Chunk.data, if_neg (by rw [hcount]; decide), ← expand, hdata,
        hcount]
      conv_rhs => rw [hsplit, replicate_add]
      rfl
  | case2 run hshort hne =>
    have hcount := count_ofInt (Nat.not_lt.1 hshort) [c]
    rw [putRuns, if_neg hshort, if_pos hne]
    refine ⟨forall_mem_cons.2 ⟨.inr ?_, by simp⟩, ?_⟩
    · rw [hcount]
      exact ⟨by omega, by omega, rfl⟩
    · rw [expand, flatMap_cons, flatMap_nil, append_nil, Chunk.data, if_neg (by rw [hcount]; omega),
        hcount, Int.neg_neg, Int.toNat_natCast]
      rfl
  | case3 run hshort hzero =>
    obtain rfl : run = 0 := by omega
    rw [putRuns, if_neg hshort, if_neg hzero]
    exact ⟨by simp, rfl⟩

theorem decompress_zero (stream : List UInt8) :
    decompress 0 stream = some ⟨[], stream, false, false⟩ := by
  cases stream <;> rw [decompress] <;> rfl

theorem decompress_chunk {k : Chunk} (h : k.Valid) {room : Nat} {stream : List UInt8}
    {r : Decompressed} (hr : decompress room stream = some r) :
    decompress (k.data.length + room : Nat) (k.control :: (k.block ++ stream)) =
      some (r.behind k.data false) := by
  have hcontrol : k.control.toInt8.toInt = k.count := rfl
  rw [decompress, hcontrol]
  dsimp only
  obtain ⟨hpos, -, hlength⟩ | ⟨-, hneg, hlength⟩ := h
  · have hdata : k.data = k.block := if_pos (by omega)
    have hmin : min ((k.block.length + room : Nat) : Int) k.count = k.block.length := by omega
    have hroom : ((k.block.length + room : Nat) : Int) - k.block.length = room := by omega
    rw [hdata, if_pos (by omega), if_pos (by omega), hmin, if_neg (by rw [length_append]; omega),
      hroom, Int.toNat_natCast, drop_left, take_left, hr, decide_eq_false (by omega)]
    rfl
  · obtain ⟨c, hc⟩ := length_eq_one_iff.1 hlength
    have hdata : k.data = replicate (-k.count).toNat c := by
      rw [Chunk.data, if_neg (by omega), hc]
      rfl
    have hmin : min (((-k.count).toNat + room : Nat) : Int) (-k.count) = (-k.count).toNat := by
      omega
    have hroom : (((-k.count).toNat + room : Nat) : Int) - (-k.count).toNat = room := by omega
    rw [hdata, length_replicate, if_pos (by omega), if_neg (by omega), if_pos (by omega), hc]
    dsimp only [singleton_append]
    rw [hmin, hroom, hr, Int.toNat_natCast, decide_eq_false (by omega)]
    rfl

theorem decompress_bytes {chunks : List Chunk} (h : ∀ k ∈ chunks, k.Valid) (rest : List UInt8) :
    decompress (expand chunks).length (bytes chunks ++ rest) =
      some ⟨expand chunks, rest, false, false⟩ := by
  induction chunks with
  | nil => exact decompress_zero rest
  | cons k chunks ih =>
    obtain ⟨hk, hchunks⟩ := forall_mem_cons.1 h
    have hread := decompress_chunk hk (ih hchunks)
    rw [← append_assoc] at hread
    rw [expand, flatMap_cons, length_append, ← expand]
    exact hread

theorem ushort_le (n : Nat) : ushort n ≤ n := Nat.mod_le _ _

theorem findTriple_le (data : List UInt8) : findTriple data ≤ data.length := by
  fun_induction findTriple data with
  | case1 a b c rest hne ih => exact Nat.succ_le_succ ih
  | case2 => exact Nat.zero_le _
  | case3 => exact Nat.le_refl _

variable {i : Nat}

theorem findTriple_le_of (h : data[i]? = some c) (h₁ : data[i + 1]? = some c)
    (h₂ : data[i + 2]? = some c) : findTriple data ≤ i := by
  fun_induction findTriple data generalizing i with
  | case1 a b d rest hne ih =>
    cases i with
    | zero => grind
    | succ i => exact Nat.succ_le_succ (ih h h₁ h₂)
  | case2 => exact Nat.zero_le _
  | case3 data hshort =>
    match data, hshort with
    | [], _ => cases h
    | [_], _ => cases h₁
    | [_, _], _ => cases h₂
    | a :: b :: d :: rest, hshort => exact absurd rfl (hshort a b d rest)

theorem takeWhile_eq_spec (c : UInt8) (data : List UInt8) :
    (∀ j < (data.takeWhile (· = c)).length, data[j]? = some c) ∧
      data[(data.takeWhile (· = c)).length]? ≠ some c := by
  induction data with
  | nil => simp
  | cons d data ih =>
    by_cases h : d = c
    · subst h
      rw [takeWhile_cons_of_pos (by simp)]
      refine ⟨fun j hj => ?_, ih.2⟩
      cases j with
      | zero => rfl
      | succ j => exact ih.1 j (Nat.lt_of_succ_lt_succ hj)
    · simp [h]

theorem equalRun_spec (hne : data ≠ []) : 0 < equalRun data ∧
    (∀ j < equalRun data, data[j]? = data[0]?) ∧ data[equalRun data]? ≠ data[0]? := by
  cases data with
  | nil => exact absurd rfl hne
  | cons c data =>
    obtain ⟨hsame, hnext⟩ := takeWhile_eq_spec c data
    refine ⟨Nat.succ_pos _, fun j hj => ?_, hnext⟩
    cases j with
    | zero => rfl
    | succ j => exact hsame j (Nat.lt_of_succ_lt_succ hj)

theorem replicate_equalRun_append (data : List UInt8) :
    replicate (equalRun data) data.headI ++ data.drop (equalRun data) = data := by
  cases data with
  | nil => rfl
  | cons c data =>
    obtain ⟨-, hsame, -⟩ := equalRun_spec (cons_ne_nil c data)
    refine ext_getElem? fun i => ?_
    by_cases hi : i < equalRun (c :: data)
    · rw [getElem?_append_left (by rwa [length_replicate]), getElem?_replicate, if_pos hi,
        hsame i hi]
      rfl
    · grind

def taken (data : List UInt8) : Nat :=
  let m := ushort (findTriple data)
  let e := equalRun (data.drop m)
  if ushort e ≠ 0 then m + e else m

theorem compressStep_spec (data : List UInt8) : (∀ k ∈ (compressStep data).1, k.Valid) ∧
    (compressStep data).2 = data.drop (taken data) ∧
    (data.length ≤ 65535 → expand (compressStep data).1 ++ (compressStep data).2 = data) := by
  obtain ⟨hvalid, hdata, hrest⟩ :=
    putBlocks_spec (Nat.le_trans (ushort_le _) (findTriple_le data))
  unfold compressStep taken
  dsimp only
  generalize ushort (findTriple data) = m at *
  rw [hrest]
  have hall := replicate_equalRun_append (data.drop m)
  split_ifs with he
  · obtain ⟨hruns, hsame⟩ := @putRuns_spec (ushort (equalRun (data.drop m))) (data.drop m).headI
    refine ⟨forall_mem_append.2 ⟨hvalid, hruns⟩, drop_drop, fun hlength => ?_⟩
    have hle := congrArg length hall
    simp only [length_append, length_replicate, length_drop] at hle
    dsimp only
    rw [expand, flatMap_append, ← expand, ← expand, hdata, hsame, ushort_of_lt (by omega),
      append_assoc, hall, take_append_drop]
  · exact ⟨hvalid, rfl, fun _ => by rw [hdata, take_append_drop]⟩

theorem compress_spec {turns : Nat} {chunks : List Chunk} (h : compress turns data = some chunks) :
    (∀ k ∈ chunks, k.Valid) ∧ (data.length ≤ 65535 → expand chunks = data) := by
  fun_induction compress turns data generalizing chunks with
  | case1 =>
    cases h
    exact ⟨nofun, fun _ => rfl⟩
  | case2 => cases h
  | case3 turns data hne ih =>
    obtain ⟨behind, hbehind, rfl⟩ := Option.map_eq_some_iff.1 h
    obtain ⟨hvalid, hrest, hdata⟩ := compressStep_spec data
    obtain ⟨hvalid', hdata'⟩ := ih hbehind
    refine ⟨forall_mem_append.2 ⟨hvalid, hvalid'⟩, fun hlength => ?_⟩
    have hle := hdata hlength
    rw [expand, flatMap_append, ← expand, ← expand, hdata' (by grind), hle]

/-- A run of equal bytes starts at `p`. -/
def Starts (data : List UInt8) (p : Nat) : Prop := p = 0 ∨ data[p - 1]? ≠ data[p]?

/-- No run of equal bytes has a length that is lost in a `USHORT`. -/
def Counted (data : List UInt8) : Prop :=
  ∀ p < data.length, Starts data p → ¬65536 ∣ equalRun (data.drop p)

variable {p : Nat}

theorem run_spec (hp : p < data.length) : 0 < equalRun (data.drop p) ∧
    (∀ j < equalRun (data.drop p), data[p + j]? = data[p]?) ∧
      data[p + equalRun (data.drop p)]? ≠ data[p]? := by
  have h := equalRun_spec (show data.drop p ≠ [] by simpa using hp)
  simpa only [getElem?_drop, Nat.add_zero] using h

theorem findTriple_drop_le (hi : i < data.length) (hp : p ≤ i)
    (h : data[i + 1]? = data[i]?) (h' : data[i + 2]? = data[i]?) :
    p + findTriple (data.drop p) ≤ i := by
  have hle : findTriple (data.drop p) ≤ i - p :=
    findTriple_le_of (c := data[i]) (by grind) (by grind) (by grind)
  omega

theorem three_le_of_dvd (hn : 0 < n) (h : 65536 ∣ n) : 3 ≤ n :=
  Nat.le_trans (by decide) (Nat.le_of_dvd hn h)

theorem taken_le (hi : i < data.length) (hstarts : Starts data i)
    (hdvd : 65536 ∣ equalRun (data.drop i)) (hp : p ≤ i) : p + taken (data.drop p) ≤ i := by
  obtain ⟨hpos, hsame, -⟩ := run_spec hi
  have hm := Nat.le_trans (Nat.add_le_add_left (ushort_le _) p)
    (findTriple_drop_le hi hp (hsame 1 (by omega)) (hsame 2 (by omega)))
  unfold taken
  dsimp only
  rw [drop_drop]
  generalize ushort (findTriple (data.drop p)) = m at *
  split_ifs with he
  · obtain ⟨-, hsame', -⟩ := run_spec (show p + m < data.length by omega)
    rcases Nat.lt_or_eq_of_le hm with hlt | rfl
    · by_contra hover
      have hlast := hsame' (i - 1 - (p + m)) (by omega)
      have hfirst := hsame' (i - (p + m)) (by omega)
      unfold Starts at hstarts
      grind
    · exact absurd (Nat.mod_eq_zero_of_dvd hdvd) he
  · exact hm

theorem taken_pos (h : Counted data) (hp : p < data.length) (hstarts : Starts data p) :
    0 < taken (data.drop p) ∧ Starts data (p + taken (data.drop p)) := by
  have hm := ushort_le (findTriple (data.drop p))
  have hle := findTriple_le (data.drop p)
  rw [length_drop] at hle
  unfold taken
  dsimp only
  rw [drop_drop]
  generalize ushort (findTriple (data.drop p)) = m at *
  rcases Nat.lt_or_ge (p + m) data.length with hlt | hge
  · obtain ⟨hpos, hsame, hnext⟩ := run_spec hlt
    have he : ushort (equalRun (data.drop (p + m))) ≠ 0 := fun hzero => by
      have hdvd : 65536 ∣ equalRun (data.drop (p + m)) := Nat.dvd_of_mod_eq_zero hzero
      refine h (p + m) hlt ?_ hdvd
      by_contra hnot
      obtain ⟨hne, heq⟩ := not_or.1 hnot
      rcases Nat.eq_zero_or_pos m with rfl | hmpos
      · exact hnot hstarts
      · have hlt' : p + m - 1 < data.length := by omega
        have htriple := findTriple_drop_le hlt' (p := p) (by omega) (by have := hsame 1; grind)
          (by have := hsame 1; grind)
        omega
    rw [if_pos he]
    have hlast := hsame (equalRun (data.drop (p + m)) - 1) (by omega)
    refine ⟨by omega, .inr ?_⟩
    grind
  · have hnil : data.drop (p + m) = [] := drop_eq_nil_of_le hge
    rw [hnil, if_neg (by decide)]
    refine ⟨by omega, .inr ?_⟩
    grind

theorem compress_eq_none (hi : i < data.length) (hstarts : Starts data i)
    (hdvd : 65536 ∣ equalRun (data.drop i)) (turns : Nat) (hp : p ≤ i) :
    compress turns (data.drop p) = none := by
  have hne {p : Nat} (hp : p ≤ i) : data.drop p ≠ [] := by
    rw [ne_eq, drop_eq_nil_iff]
    omega
  induction turns generalizing p with
  | zero =>
    have := hne hp
    cases hdata : data.drop p with
    | nil => contradiction
    | cons => rfl
  | succ turns ih =>
    rw [compress_succ turns (hne hp), (compressStep_spec _).2.1, drop_drop,
      ih (taken_le hi hstarts hdvd hp)]
    rfl

theorem Counted.compress (h : Counted data) (p : Nat) (hstarts : Starts data p) :
    ∃ turns chunks, compress turns (data.drop p) = some chunks := by
  induction hn : data.length - p using Nat.strong_induction_on generalizing p with
  | _ n ih =>
    by_cases hp : p < data.length
    · obtain ⟨hpos, hnext⟩ := taken_pos h hp hstarts
      obtain ⟨turns, chunks, hrest⟩ := ih _ (by omega) (p + taken (data.drop p)) hnext rfl
      exact ⟨turns + 1, _, by
        rw [compress_succ turns (by simpa using hp), (compressStep_spec _).2.1, drop_drop, hrest]
        rfl⟩
    · rw [drop_eq_nil_of_le (by omega)]
      exact ⟨0, [], rfl⟩

/-- `compress` ends if and only if no run of equal bytes has a length that is a multiple of 65536;
what it writes is read back. -/
theorem compress_iff (data : List UInt8) :
    (∃ turns chunks, compress turns data = some chunks ∧ (∀ k ∈ chunks, k.Valid) ∧
      (data.length ≤ 65535 → ∀ rest, decompress data.length (bytes chunks ++ rest) =
        some ⟨data, rest, false, false⟩)) ↔ Counted data := by
  constructor
  · rintro ⟨turns, chunks, hsome, -⟩ i hi hstarts hdvd
    have hnone := compress_eq_none hi hstarts hdvd turns (Nat.zero_le i)
    rw [drop_zero, hsome] at hnone
    cases hnone
  · intro h
    obtain ⟨turns, chunks, hsome⟩ := h.compress 0 (.inl rfl)
    rw [drop_zero] at hsome
    obtain ⟨hvalid, hdata⟩ := compress_spec hsome
    refine ⟨turns, chunks, hsome, hvalid, fun hlength rest => ?_⟩
    have hread := decompress_bytes hvalid rest
    rwa [hdata hlength] at hread

/-- As many zeros as a `USHORT` has values. -/
theorem compress_zeros : ¬∃ turns, (compress turns (replicate 65536 0)).isSome := by
  rintro ⟨turns, hsome⟩
  have hlength : (replicate 65536 (0 : UInt8)).length = 65536 := length_replicate
  obtain ⟨n, hn⟩ : ∃ n, n = 65536 := ⟨_, rfl⟩
  rw [← hn] at hsome hlength
  have hrun : equalRun (replicate n 0) = n := by
    obtain ⟨n, rfl⟩ := Nat.exists_eq_add_of_le' (show 1 ≤ n by omega)
    rw [replicate_succ, equalRun, takeWhile_replicate]
    simp
  have hpos : 0 < (replicate n (0 : UInt8)).length := by omega
  have hnone := compress_eq_none hpos (.inl rfl)
    ⟨1, by rw [drop_zero, hrun, hn]⟩ turns (Nat.le_refl 0)
  rw [drop_zero] at hnone
  rw [hnone] at hsome
  cases hsome

end Firebird.Burp
