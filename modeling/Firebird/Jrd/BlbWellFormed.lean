import Mathlib.Data.List.Basic
import Mathlib.Tactic.Ring

/-!
# Well-formedness of text blobs

`BLB_check_well_formed` reads a blob in buffers of a fixed capacity. A character that is cut off
at the end of a buffer is moved to its start and looked at again behind the next read.
-/
namespace Firebird.Jrd.Blb

open List

/-- A character set with a `wellFormed` function. `charLength` gives the length of the character
a string starts with, or none where that is malformed or incomplete. -/
structure CharSet where
  maxBytesPerChar : Nat
  pos : 0 < maxBytesPerChar
  charLength : List UInt8 → Option Nat
  bounds : ∀ {s n}, charLength s = some n → 0 < n ∧ n ≤ s.length
  append : ∀ {s n} t, charLength s = some n → charLength (s ++ t) = some n
  malformed : ∀ {s} t, charLength s = none → maxBytesPerChar ≤ s.length →
    charLength (s ++ t) = none

def CharSet.wellFormed (cs : CharSet) (str : List UInt8) : Option Nat :=
  if str = [] then none
  else match _ : cs.charLength str with
    | none => some 0
    | some n => (cs.wellFormed (str.drop n)).map (· + n)
  termination_by str.length
  decreasing_by
    have h := cs.bounds ‹_›
    grind

/-- An open blob: the segments that are still to be read and `BLB_eof`. A stream blob has one
segment. -/
structure TextBlob where
  segments : List (List UInt8)
  eof : Bool

/-- `BLB_get_segment`: the next segment, or a fragment of it. The end of the blob is noticed by
the call after its last segment. -/
def getSegment (blob : TextBlob) (bufferLength : Nat) : List UInt8 × TextBlob :=
  if blob.eof then ([], blob)
  else match blob.segments with
    | [] => ([], { blob with eof := true })
    | segment :: rest => (segment.take bufferLength, { blob with
        segments := if segment.length ≤ bufferLength then rest
          else segment.drop bufferLength :: rest })

def TextBlob.size (blob : TextBlob) : Nat := (blob.segments.map (·.length + 1)).sum

theorem getSegment_size {blob : TextBlob} {n : Nat} (hn : 0 < n)
    (heof : (getSegment blob n).2.eof = false) : (getSegment blob n).2.size < blob.size := by
  revert heof
  fun_cases getSegment blob n <;> grind [TextBlob.size]

/-- `BLB_get_data`: segments until the buffer is full or the blob is exhausted. -/
def getData (blob : TextBlob) (length : Nat) : List UInt8 × TextBlob :=
  if length = 0 then ([], blob)
  else
    let read := getSegment blob (min length 32768)
    if read.2.eof then read
    else
      let rest := getData read.2 (length - read.1.length)
      (read.1 ++ rest.1, rest.2)
  termination_by blob.size
  decreasing_by exact getSegment_size (by omega) (Bool.eq_false_iff.mpr ‹_›)

/-- The characters `CVGB_check_gb2312` goes over: ASCII, and pairs of `GB1` and `GB2`. -/
def gb2312Length : List UInt8 → Option Nat
  | [] => none
  | c1 :: rest =>
    if c1 &&& 0x80 = 0 then some 1
    else if (0xa1 ≤ c1 ∧ c1 ≤ 0xfe) ∧ rest.head?.any fun c2 => 0xa1 ≤ c2 ∧ c2 ≤ 0xfe then some 2
    else none

def gb2312 : CharSet where
  maxBytesPerChar := 2
  pos := by decide
  charLength := gb2312Length
  bounds {s n} h := by
    obtain _ | ⟨c1, _ | ⟨c2, s⟩⟩ := s <;> simp [gb2312Length] at h ⊢ <;> grind
  append {s n} t h := by
    obtain _ | ⟨c1, _ | ⟨c2, s⟩⟩ := s <;> simp [gb2312Length] at h ⊢ <;> grind
  malformed {s} t h hlen := by
    obtain _ | ⟨c1, _ | ⟨c2, s⟩⟩ := s
    · cases hlen
    · cases hlen
      contradiction
    · exact h

inductive Error
  | malformedString
  deriving DecidableEq

/-- The loop of `BLB_check_well_formed`; the buffer starts with `pos` bytes of the last read. -/
def checkLoop (cs : CharSet) (capacity : Nat) :
    Nat → TextBlob → List UInt8 → Option (Except Error Unit)
  | 0, _, _ => none
  | fuel + 1, blob, pending =>
    if blob.eof then some (if pending = [] then .ok () else .error .malformedString)
    else
      let read := getData blob (capacity - pending.length)
      let buffer := pending ++ read.1
      match cs.wellFormed buffer with
      | none => checkLoop cs capacity fuel read.2 []
      | some 0 => some (.error .malformedString)
      | some pos => checkLoop cs capacity fuel read.2 (buffer.drop pos)

/-- `BLB_check_well_formed`. There is nothing to check for `CS_NONE`, for `CS_BINARY` and for a
character set without a `wellFormed` function. -/
def checkWellFormed (charSet : Option CharSet) (capacity fuel : Nat) (blob : TextBlob) :
    Option (Except Error Unit) :=
  match charSet with
  | none => some (.ok ())
  | some cs => checkLoop cs capacity fuel blob []

section

variable {cs : CharSet} {str rest : List UInt8} {pos n : Nat} {blob : TextBlob}

theorem wellFormed_nil : cs.wellFormed [] = none := by
  rw [CharSet.wellFormed]
  exact if_pos rfl

theorem wellFormed_of_some (h : cs.charLength str = some n) :
    cs.wellFormed str = (cs.wellFormed (str.drop n)).map (· + n) := by
  have := cs.bounds h
  rw [CharSet.wellFormed, if_neg (by grind)]
  split <;> grind

theorem wellFormed_of_none (h : cs.charLength str = none) (hstr : str ≠ []) :
    cs.wellFormed str = some 0 := by
  rw [CharSet.wellFormed, if_neg hstr]
  split <;> grind

theorem wellFormed_append (h : cs.wellFormed str = none) :
    cs.wellFormed (str ++ rest) = none ↔ cs.wellFormed rest = none := by
  fun_induction CharSet.wellFormed cs str with
  | case1 => rfl
  | case2 => cases h
  | case3 str hne n hn ih =>
    rw [wellFormed_of_some (cs.append rest hn), drop_append_of_le_length (cs.bounds hn).2,
      Option.map_eq_none_iff]
    exact ih (Option.map_eq_none_iff.mp h)

theorem wellFormed_some (rest : List UInt8) (h : cs.wellFormed str = some pos) :
    pos < str.length ∧ cs.charLength (str.drop pos) = none ∧
      (cs.wellFormed (str ++ rest) = none ↔ cs.wellFormed (str.drop pos ++ rest) = none) := by
  fun_induction CharSet.wellFormed cs str generalizing pos with
  | case1 => cases h
  | case2 str hne hn =>
    cases h
    exact ⟨length_pos_iff.mpr hne, hn, Iff.rfl⟩
  | case3 str hne n hn ih =>
    obtain ⟨pos', h', rfl⟩ := Option.map_eq_some_iff.mp h
    obtain ⟨hlt, hnone, hiff⟩ := ih h'
    rw [length_drop] at hlt
    rw [drop_drop, Nat.add_comm n] at hnone hiff
    rw [wellFormed_of_some (cs.append rest hn), drop_append_of_le_length (cs.bounds hn).2,
      Option.map_eq_none_iff]
    exact ⟨by omega, hnone, hiff⟩

/-- A read of at most `length` bytes: nothing is lost, and a blob is exhausted when nothing is left
of it. -/
structure Reads (blob : TextBlob) (length : Nat) (read : List UInt8 × TextBlob) : Prop where
  content : read.1 ++ read.2.segments.flatten = blob.segments.flatten
  length_le : read.1.length ≤ length
  eof : read.2.eof = true → read.2.segments = []

theorem getSegment_reads (length : Nat) (heof : blob.eof = true → blob.segments = []) :
    Reads blob length (getSegment blob length) := by
  fun_cases getSegment blob length with
  | case1 h => exact ⟨rfl, Nat.zero_le _, heof⟩
  | case2 h hnil => exact ⟨rfl, Nat.zero_le _, fun _ => hnil⟩
  | case3 h segment rest hcons =>
    refine ⟨?_, length_take_le _ _, fun h' => absurd h' h⟩
    dsimp only
    rw [hcons, flatten_cons]
    split_ifs with hle
    · rw [take_of_length_le hle]
    · rw [flatten_cons, ← append_assoc, take_append_drop]

theorem getData_reads (length : Nat) (heof : blob.eof = true → blob.segments = []) :
    Reads blob length (getData blob length) ∧
      ((getData blob length).1.length < length → (getData blob length).2.eof = true) := by
  fun_induction getData blob length with
  | case1 => exact ⟨⟨rfl, Nat.zero_le _, heof⟩, fun h => absurd h (Nat.lt_irrefl _)⟩
  | case2 blob length hlen read h =>
    have hread := getSegment_reads (min length 32768) heof
    exact ⟨⟨hread.content, Nat.le_trans hread.length_le (Nat.min_le_left _ _), hread.eof⟩,
      fun _ => h⟩
  | case3 blob length hlen read h rest ih =>
    have hread := getSegment_reads (min length 32768) heof
    obtain ⟨hrest, hfull⟩ := ih hread.eof
    have hrestle : rest.1.length ≤ length - read.1.length := hrest.length_le
    have hle : read.1.length ≤ length := Nat.le_trans hread.length_le (Nat.min_le_left _ _)
    refine ⟨⟨?_, ?_, hrest.eof⟩, fun hlt => hfull ?_⟩
    · rw [append_assoc, hrest.content, hread.content]
    · rw [length_append]
      omega
    · rw [length_append] at hlt
      change rest.1.length < _
      omega

def verdict (cs : CharSet) (text : List UInt8) : Except Error Unit :=
  if cs.wellFormed text = none then .ok () else .error .malformedString

theorem verdict_congr {text : List UInt8}
    (h : cs.wellFormed str = none ↔ cs.wellFormed text = none) :
    verdict cs str = verdict cs text := by
  unfold verdict
  exact if_congr h rfl rfl

/-- The invariant of the loop: what was moved to the start of the buffer does not fill it and starts
with no character. -/
structure Pending (cs : CharSet) (capacity : Nat) (pending : List UInt8) : Prop where
  length_lt : pending.length < capacity
  charLength : pending ≠ [] → cs.charLength pending = none

theorem checkLoop_eq {capacity : Nat} (hcap : cs.maxBytesPerChar ≤ capacity) (fuel : Nat)
    (blob : TextBlob) (pending : List UInt8) (hpending : Pending cs capacity pending)
    (heof : blob.eof = true → blob.segments = [])
    (hfuel : blob.segments.flatten.length + (if blob.eof then 0 else 1) < fuel) :
    checkLoop cs capacity fuel blob pending =
      some (verdict cs (pending ++ blob.segments.flatten)) := by
  induction fuel generalizing blob pending with
  | zero => exact absurd hfuel (Nat.not_lt_zero _)
  | succ fuel ih =>
    rw [checkLoop]
    split
    case isTrue h =>
      rw [heof h, flatten_nil, append_nil, verdict]
      by_cases hnil : pending = []
      · rw [if_pos hnil, hnil, wellFormed_nil, if_pos rfl]
      · rw [if_neg hnil, wellFormed_of_none (hpending.charLength hnil) hnil, if_neg nofun]
    case isFalse h =>
      obtain ⟨hread, hfull⟩ := getData_reads (capacity - pending.length) heof
      have hpos := hpending.length_lt
      -- either bytes were read or the end of the blob was noticed
      have hfuel' : (getData blob (capacity - pending.length)).2.segments.flatten.length +
          (if (getData blob (capacity - pending.length)).2.eof then 0 else 1) < fuel := by
        have := congrArg length hread.content
        rw [length_append] at this
        rw [if_neg h] at hfuel
        split_ifs <;> grind
      generalize getData blob (capacity - pending.length) = read at *
      have hle := hread.length_le
      rw [← hread.content, ← append_assoc]
      dsimp only
      generalize hbuffer : pending ++ read.1 = buffer
      have hlen : buffer.length = pending.length + read.1.length := by
        rw [← hbuffer, length_append]
      split
      case h_1 hwell =>
        rw [ih read.2 [] ⟨by simp; omega, fun h => absurd rfl h⟩ hread.eof hfuel', nil_append,
          verdict_congr (wellFormed_append hwell)]
      case h_2 hzero =>
        obtain ⟨hlt, hnone, -⟩ := wellFormed_some [] hzero
        have hnone' : cs.charLength (buffer ++ read.2.segments.flatten) = none := by
          by_cases hend : read.1.length < capacity - pending.length
          · rw [hread.eof (hfull hend), flatten_nil, append_nil]
            exact hnone
          · exact cs.malformed _ hnone (by omega)
        rw [verdict, wellFormed_of_none hnone' (append_ne_nil_of_left_ne_nil
          (length_pos_iff.mp hlt) _), if_neg nofun]
      case h_3 pos hpos' hsome =>
        obtain ⟨hlt, hnone, hiff⟩ := wellFormed_some read.2.segments.flatten hsome
        rw [ih read.2 _ ⟨?_, fun _ => hnone⟩ hread.eof hfuel', verdict_congr hiff]
        rw [length_drop]
        have : pos ≠ 0 := hpos'
        omega

end

/-- However a text is cut into segments, and whatever the capacity of the buffer, the check ends and
raises the error if and only if the text as a whole is not well formed. -/
theorem checkWellFormed_iff (charSet : Option CharSet) (capacity : Nat)
    (hcap : ∀ cs ∈ charSet, cs.maxBytesPerChar ≤ capacity) (segments : List (List UInt8))
    (fuel : Nat) (hfuel : segments.flatten.length + 1 < fuel) :
    ∃ result, checkWellFormed charSet capacity fuel ⟨segments, false⟩ = some result ∧
      (result = .error .malformedString ↔
        ∃ cs ∈ charSet, cs.wellFormed segments.flatten ≠ none) := by
  cases charSet with
  | none => exact ⟨.ok (), rfl, by simp⟩
  | some cs =>
    refine ⟨verdict cs segments.flatten, ?_, ?_⟩
    · have hcap' := hcap cs rfl
      exact checkLoop_eq hcap' fuel ⟨segments, false⟩ []
        ⟨Nat.lt_of_lt_of_le cs.pos hcap', fun h => absurd rfl h⟩ nofun hfuel
    · unfold verdict
      split_ifs <;> simp_all

/-- A character over two segments and two buffers, and an incomplete one at the end. -/
theorem checkWellFormed_gb2312 :
    ∃ result, checkWellFormed (some gb2312) 2 6 ⟨[[0x61, 0xb0], [], [0xa1, 0xb0]], false⟩ =
      some result ∧ (result = .error .malformedString ↔
        ∃ cs ∈ some gb2312, cs.wellFormed [0x61, 0xb0, 0xa1, 0xb0] ≠ none) :=
  checkWellFormed_iff (some gb2312) 2 (by simp [gb2312]) _ 6 (by decide)

end Firebird.Jrd.Blb
