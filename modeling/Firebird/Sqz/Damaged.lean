import Firebird.Sqz.Compress
import Firebird.Sqz.Differences

/-!
# Damaged records

What `SQZ_decompress` and `SQZ_apply_differences` do with bytes that no compression has written. Any
input is a sequence of tokens, up to the end or to a control byte that asks for more than is there.
-/
namespace Firebird.Sqz

open List

section Decompress

open Lib RunLength

variable {cap fuel : Nat} {input output : List SCHAR}

/-- Decompression of a whole area either bugchecks, or it reads the area as tokens and writes what
they stand for into the room there is. -/
def Decompresses (input : List SCHAR) (cap : Nat) : Prop :=
  match sqzDecompress input input.length cap with
  | .error (.bugcheck _) => True
  | .error .overread => False
  | .ok output => ∃ ts, (∀ t ∈ ts, Readable t) ∧ input = encode Int8.ofInt ts ∧
      output = expand ts ∧ output.length ≤ cap

/-- After some tokens there is a control byte for more literals than are left, and there would be
room for them. -/
def Truncated (input : List SCHAR) (cap : Nat) : Prop :=
  ∃ (ts : List (Token SCHAR)) (n : Nat) (ls : List SCHAR), (∀ t ∈ ts, Readable t) ∧ n ≤ 127 ∧
    input = encode Int8.ofInt ts ++ Int8.ofInt n :: ls ∧ ls.length < n ∧
    (expand ts).length + n ≤ cap

theorem decompressLoop_encode (ts : List (Token SCHAR)) (rest : List SCHAR)
    (hfuel : size ts + rest.length ≤ fuel) (h : ∀ t ∈ ts, Readable t)
    (hcap : output.length + (expand ts).length ≤ cap) :
    ∃ fuel', rest.length ≤ fuel' ∧
      decompressLoop cap fuel (encode Int8.ofInt ts ++ rest) (size ts + rest.length) output =
        decompressLoop cap fuel' rest rest.length (output ++ expand ts) := by
  induction ts generalizing fuel output with
  | nil =>
    refine ⟨fuel, by simpa using hfuel, ?_⟩
    rw [encode_nil, nil_append, size_nil, Nat.zero_add, expand_nil, append_nil]
  | cons t ts ih =>
    have ht := h t mem_cons_self
    have hc : (Int8.ofInt t.control).toInt = t.control := ht.toInt_controlByte
    rw [size_cons] at hfuel
    have hpos : 0 < t.size := by simp [Token.size]
    obtain ⟨fuel, rfl⟩ : ∃ f, fuel = f + 1 := ⟨fuel - 1, by omega⟩
    rw [expand_cons, length_append] at hcap
    have hsize : size (t :: ts) + rest.length = t.payload.length + (size ts + rest.length) + 1 := by
      rw [size_cons, Token.size]
      omega
    obtain ⟨fuel', hle, heq⟩ := @ih fuel (output ++ t.expand) (by omega)
      (fun u hu => h u (mem_cons_of_mem t hu)) (by rw [length_append]; omega)
    refine ⟨fuel', hle, ?_⟩
    rw [expand_cons, ← append_assoc, ← heq, hsize, encode_cons, cons_append, append_assoc]
    simp only [decompressLoop, hc]
    cases t with
    | literal ls =>
      simp only [Token.expand] at hcap
      have hroom : ¬ cap < output.length + ls.length := by omega
      simp [Token.control, Token.payload, Token.expand, hroom]
    | repeated n a =>
      simp only [Token.expand, length_replicate] at hcap
      have hn : 0 < n := ht.1
      have hroom : ¬ cap < output.length + n := by omega
      simp [Token.control, Token.payload, Token.expand, hn, hroom]

def Ends (cap : Nat) (input output : List SCHAR) (r : Except Fault (List SCHAR)) : Prop :=
  r = .error (.bugcheck 179) ∨
  (∃ ts, (∀ t ∈ ts, Readable t) ∧ input = encode Int8.ofInt ts ∧ r = .ok (output ++ expand ts)) ∨
  ∃ (ts : List (Token SCHAR)) (n : Nat) (ls : List SCHAR), (∀ t ∈ ts, Readable t) ∧ n ≤ 127 ∧
    input = encode Int8.ofInt ts ++ Int8.ofInt n :: ls ∧ ls.length < n ∧
    output.length + (expand ts).length + n ≤ cap

theorem Ends.cons {r : Except Fault (List SCHAR)} {t : Token SCHAR} {control : SCHAR}
    (ht : Readable t) (hc : Int8.ofInt t.control = control)
    (h : Ends cap input (output ++ t.expand) r) :
    Ends cap (control :: (t.payload ++ input)) output r := by
  have hall : ∀ {ts : List (Token SCHAR)}, (∀ u ∈ ts, Readable u) → ∀ u ∈ t :: ts, Readable u :=
    fun hts u hu => (mem_cons.1 hu).elim (fun heq => heq ▸ ht) (hts u)
  subst hc
  rcases h with h | ⟨ts, hts, rfl, h⟩ | ⟨ts, n, ls, hts, hn, rfl, hls, hcap⟩
  · exact .inl h
  · refine .inr (.inl ⟨t :: ts, hall hts, by rw [encode_cons], ?_⟩)
    rw [h, expand_cons, append_assoc]
  · refine .inr (.inr ⟨t :: ts, n, ls, hall hts, hn, ?_, hls, ?_⟩)
    · rw [encode_cons, cons_append, append_assoc]
    · rw [expand_cons, length_append]
      rw [length_append] at hcap
      omega

theorem decompressLoop_ends (hfuel : input.length ≤ fuel) :
    Ends cap input output (decompressLoop cap fuel input input.length output) := by
  induction fuel generalizing input output with
  | zero =>
    obtain rfl := length_eq_zero_iff.1 (Nat.le_zero.1 hfuel)
    exact .inr (.inl ⟨[], by simp, rfl, by simp [decompressLoop]⟩)
  | succ fuel ih =>
    cases input with
    | nil => exact .inr (.inl ⟨[], by simp, rfl, by simp [decompressLoop]⟩)
    | cons control input =>
      have hlow : -128 ≤ control.toInt := control.minValue_le_toInt
      have hhigh : control.toInt ≤ 127 := control.toInt_le
      rw [length_cons] at hfuel ⊢
      simp only [decompressLoop]
      split_ifs with hneg hfull hfull hshort
      · exact .inl rfl
      · -- a letter is repeated
        cases input with
        | nil => simp at hfull
        | cons c input =>
          have hn : 1 ≤ (-control.toInt).toNat ∧ (-control.toInt).toNat ≤ 128 := by omega
          have hcontrol : Int8.ofInt (Token.repeated (-control.toInt).toNat c).control = control :=
            by
              rw [Token.control, Int.toNat_of_nonneg (by omega), Int.neg_neg, Int8.ofInt_toInt]
          refine Ends.cons (t := .repeated (-control.toInt).toNat c) hn hcontrol ?_
          exact ih (by simp only [length_cons] at hfuel; omega)
      · exact .inl rfl
      · refine .inr (.inr ⟨[], control.toInt.toNat, input, by simp, by omega, ?_, hshort, ?_⟩)
        · rw [Int.toNat_of_nonneg (by omega), Int8.ofInt_toInt, encode_nil, nil_append]
        · simp only [expand_nil, length_nil]
          omega
      · have hcontrol : Int8.ofInt (Token.literal (input.take control.toInt.toNat)).control =
            control := by
          rw [Token.control, length_take_of_le (by omega), Int.toNat_of_nonneg (by omega),
            Int8.ofInt_toInt]
        have hlen : (input.take control.toInt.toNat).length ≤ 127 := by
          rw [length_take]
          omega
        have hends := @ih (input.drop control.toInt.toNat)
          (output ++ input.take control.toInt.toNat) (by rw [length_drop]; omega)
        rw [length_drop] at hends
        have hcons := Ends.cons (t := .literal (input.take control.toInt.toNat)) hlen hcontrol hends
        rwa [Token.payload, take_append_drop] at hcons

/-- Decompression of whatever bytes is safe if and only if the input is not cut off within the
literals of a token. -/
theorem sqz_decompress_damaged (input : List SCHAR) (cap : Nat) (hlen : input.length ≤ 65535) :
    Decompresses input cap ↔ ¬ Truncated input cap := by
  have hshort : ushort input.length = input.length := ushort_of_lt (by omega)
  constructor
  · rintro h ⟨ts, n, ls, hts, hn, rfl, hls, hcap⟩
    obtain ⟨fuel, hle, hloop⟩ := @decompressLoop_encode cap _ [] ts (Int8.ofInt n :: ls) le_rfl hts
      (by rw [length_nil]; omega)
    have hsize : (encode Int8.ofInt ts ++ Int8.ofInt n :: ls).length =
        size ts + (Int8.ofInt n :: ls).length := by
      rw [length_append, length_encode]
    have hc : (Int8.ofInt (n : Int)).toInt = n := toInt_ofInt_schar (by omega) (by omega)
    obtain ⟨fuel, rfl⟩ : ∃ f, fuel = f + 1 :=
      ⟨fuel - 1, by rw [length_cons] at hle; omega⟩
    have hstop : decompressLoop cap (fuel + 1) (Int8.ofInt n :: ls) (Int8.ofInt n :: ls).length
        ([] ++ expand ts) = .error .overread := by
      simp only [length_cons, decompressLoop, hc, nil_append, Int.toNat_natCast]
      rw [if_neg (by omega), if_neg (by omega), if_pos hls]
    rw [Decompresses, sqzDecompress, hshort, hsize, hloop, hstop] at h
    exact h
  · intro hwhole
    rw [Decompresses, sqzDecompress, hshort]
    rcases @decompressLoop_ends cap _ input [] (le_refl input.length) with
      h | ⟨ts, hts, heq, h⟩ | ⟨ts, n, ls, hts, hn, heq, hls, hcap⟩
    · rw [h]
      trivial
    · rw [h, nil_append]
      dsimp only [bind, Except.bind]
      split_ifs with hcap
      · trivial
      · exact ⟨ts, hts, heq, rfl, by omega⟩
    · exact absurd ⟨ts, n, ls, hts, hn, heq, hls, by simpa using hcap⟩ hwhole

theorem sqz_decompress_damaged_run : Decompresses [-3, 7] 3 ↔ ¬ Truncated [-3, 7] 3 :=
  sqz_decompress_damaged [-3, 7] 3 (by decide)

/-- Five literals are announced, and none is there. -/
theorem sqz_decompress_overread :
    ¬ ∀ (input : List SCHAR) (cap : Nat), input.length ≤ 65535 → Decompresses input cap := by
  intro h
  exact h [5] 5 (by decide)

end Decompress

section Differences

open Lib Patch

variable {fuel p : Nat} {record record' differences left : List SCHAR}

def Announced : Token SCHAR → Prop
  | .keep n => n ≤ 128
  | .replace ls => 1 ≤ ls.length ∧ ls.length ≤ 127

def covered (ts : List (Token SCHAR)) : Nat := (ts.map Token.span).sum

def Applies (record differences : List SCHAR) : Prop :=
  match sqzApplyDifferences record differences with
  | .error _ => True
  | .ok (length, record') => ∃ ts, (∀ t ∈ ts, Announced t) ∧ differences = encode Int8.ofInt ts ∧
      length = covered ts ∧ length ≤ record.length ∧ record'.length = record.length

/-- The last token of the delta keeps bytes from within the record up to the length 65536 or
more. -/
def Wraps (record differences : List SCHAR) : Prop :=
  ∃ (ts : List (Token SCHAR)) (n : Nat), (∀ t ∈ ts, Announced t) ∧ n ≤ 128 ∧
    differences = encode Int8.ofInt (ts ++ [.keep n]) ∧ covered ts < record.length ∧
    65536 ≤ covered ts + n

theorem covered_cons (t : Token SCHAR) (ts : List (Token SCHAR)) :
    covered (t :: ts) = t.span + covered ts := by
  rw [covered, map_cons, sum_cons, covered]

theorem covered_append (ts us : List (Token SCHAR)) :
    covered (ts ++ us) = covered ts + covered us := by
  rw [covered, map_append, sum_append, covered, covered]

theorem toInt_keep {n : Nat} (h : n ≤ 128) : (Int8.ofInt (-(n : Int))).toInt = -n :=
  toInt_ofInt_schar (by omega) (by omega)

theorem toInt_replace {ls : List SCHAR} (h : ls.length ≤ 127) :
    (Int8.ofInt (ls.length : Int)).toInt = ls.length :=
  toInt_ofInt_schar (by omega) (by omega)

theorem encode_injective {ts us : List (Token SCHAR)} (ht : ∀ t ∈ ts, Announced t)
    (hu : ∀ u ∈ us, Announced u) (h : encode Int8.ofInt ts = encode Int8.ofInt us) :
    covered ts = covered us := by
  induction ts generalizing us with
  | nil =>
    cases us with
    | nil => rfl
    | cons u us => cases u <;> simp [Token.encode] at h
  | cons t ts ih =>
    cases us with
    | nil => cases t <;> simp [Token.encode] at h
    | cons u us =>
      have ht' := ht t mem_cons_self
      have hu' := hu u mem_cons_self
      have ih := @ih us (fun x hx => ht x (mem_cons_of_mem t hx))
        fun x hx => hu x (mem_cons_of_mem u hx)
      rw [covered_cons, covered_cons]
      cases t with
      | keep n =>
        cases u with
        | keep m =>
          obtain ⟨hc, hrest⟩ := List.cons.inj h
          have hnm := congrArg Int8.toInt hc
          rw [toInt_keep ht', toInt_keep hu'] at hnm
          rw [ih hrest]
          simp only [Token.span]
          omega
        | replace ms =>
          obtain ⟨hc, -⟩ := List.cons.inj h
          have hnm := congrArg Int8.toInt hc
          rw [toInt_keep ht', toInt_replace hu'.2] at hnm
          have hpos := hu'.1
          omega
      | replace ls =>
        cases u with
        | keep m =>
          obtain ⟨hc, -⟩ := List.cons.inj h
          have hnm := congrArg Int8.toInt hc
          rw [toInt_keep hu', toInt_replace ht'.2] at hnm
          have hpos := ht'.1
          omega
        | replace ms =>
          obtain ⟨hc, hrest⟩ := List.cons.inj h
          have hnm := congrArg Int8.toInt hc
          rw [toInt_replace ht'.2, toInt_replace hu'.2] at hnm
          obtain ⟨hls, hrest⟩ := append_inj hrest (by omega)
          rw [ih hrest, hls]

theorem applyLoop_encode (ts : List (Token SCHAR)) (rest : List SCHAR)
    (hfuel : (encode Int8.ofInt ts ++ rest).length ≤ fuel) (h : ∀ t ∈ ts, Announced t)
    (hspan : p + covered ts < record.length) :
    ∃ fuel' record', rest.length ≤ fuel' ∧ record'.length = record.length ∧
      applyLoop fuel record p (encode Int8.ofInt ts ++ rest) =
        applyLoop fuel' record' (p + covered ts) rest := by
  induction ts generalizing fuel record p with
  | nil => exact ⟨fuel, record, by simpa using hfuel, rfl, rfl⟩
  | cons t ts ih =>
    have ht := h t mem_cons_self
    have hrest : ∀ u ∈ ts, Announced u := fun u hu => h u (mem_cons_of_mem t hu)
    rw [covered_cons] at hspan ⊢
    rw [encode_cons, append_assoc] at hfuel ⊢
    cases t with
    | keep n =>
      simp only [Token.encode, Token.span, singleton_append, length_cons] at *
      obtain ⟨fuel, rfl⟩ : ∃ f, fuel = f + 1 := ⟨fuel - 1, by omega⟩
      obtain ⟨fuel', record', hle, hlen, heq⟩ := @ih fuel (p + n) record (by omega) hrest
        (by omega)
      refine ⟨fuel', record', hle, hlen, ?_⟩
      have hneg : ¬ (0 : Int) < -n := by omega
      rw [← Nat.add_assoc, ← heq]
      simp only [applyLoop, toInt_keep ht, if_pos (by omega : p < record.length), if_neg hneg,
        Int.neg_neg, Int.toNat_natCast]
    | replace ls =>
      simp only [Token.encode, Token.span, cons_append, length_cons, length_append] at *
      obtain ⟨fuel, rfl⟩ : ∃ f, fuel = f + 1 := ⟨fuel - 1, by omega⟩
      have hroom : p + ls.length ≤ record.length := by omega
      have hlen : (record.take p ++ ls ++ record.drop (p + ls.length)).length =
          record.length := by
        simp only [length_append, length_take, length_drop]
        omega
      obtain ⟨fuel', record', hle, hlen', heq⟩ := @ih fuel (p + ls.length)
        (record.take p ++ ls ++ record.drop (p + ls.length)) (by omega) hrest (by omega)
      refine ⟨fuel', record', hle, hlen'.trans hlen, ?_⟩
      rw [applyLoop_replace ht.1 ht.2 hroom, heq, Nat.add_assoc]

/-- What a loop that ends well has done: it has applied tokens, and only the last one can go beyond
the record, if it keeps bytes. -/
theorem applyLoop_ok (hfuel : differences.length ≤ fuel) {q : Nat}
    (h : applyLoop fuel record p differences = .ok (record', q, left)) :
    record'.length = record.length ∧ ∃ ts, (∀ t ∈ ts, Announced t) ∧
      differences = encode Int8.ofInt ts ++ left ∧ q = p + covered ts ∧
      (ts = [] ∨ q ≤ record.length ∨ ∃ us n, ts = us ++ [.keep n] ∧ n ≤ 128 ∧
        p + covered us < record.length) := by
  induction fuel generalizing record p differences with
  | zero =>
    cases h
    exact ⟨rfl, [], by simp, rfl, rfl, .inl rfl⟩
  | succ fuel ih =>
    match differences with
    | [] =>
      cases h
      exact ⟨rfl, [], by simp, rfl, rfl, .inl rfl⟩
    | control :: differences =>
      have hlow : -128 ≤ control.toInt := control.minValue_le_toInt
      have hhigh : control.toInt ≤ 127 := control.toInt_le
      rw [length_cons] at hfuel
      simp only [applyLoop] at h
      split_ifs at h with hp hpos hroom hshort
      · -- a stretch is replaced
        obtain ⟨hlen, ts, hts, heq, rfl, hcases⟩ := ih (by rw [length_drop]; omega) h
        have hlen' : (record.take p ++ differences.take control.toInt.toNat ++
            record.drop (p + control.toInt.toNat)).length = record.length := by
          simp only [length_append, length_take, length_drop]
          omega
        have htake : (differences.take control.toInt.toNat).length = control.toInt.toNat :=
          length_take_of_le (by omega)
        have ht : Announced (.replace (differences.take control.toInt.toNat)) :=
          ⟨by omega, by omega⟩
        rw [hlen'] at hlen hcases
        refine ⟨hlen, .replace (differences.take control.toInt.toNat) :: ts, ?_, ?_, ?_, ?_⟩
        · exact fun t hmem => (mem_cons.1 hmem).elim (fun heq => heq ▸ ht) (hts t)
        · rw [encode_cons, Token.encode, htake, Int.toNat_of_nonneg (by omega), Int8.ofInt_toInt,
            cons_append, cons_append, append_assoc, ← heq, take_append_drop]
        · rw [covered_cons, Token.span, htake, Nat.add_assoc]
        · right
          rcases hcases with rfl | hle | ⟨us, n, rfl, hn, hus⟩
          · left
            simp only [covered, map_nil, sum_nil]
            omega
          · exact .inl hle
          · refine .inr ⟨.replace (differences.take control.toInt.toNat) :: us, n, rfl, hn, ?_⟩
            rw [covered_cons, Token.span, htake]
            omega
      · -- a stretch is kept
        obtain ⟨hlen, ts, hts, heq, rfl, hcases⟩ := ih (by omega) h
        have ht : Announced (.keep (-control.toInt).toNat) := by
          change (-control.toInt).toNat ≤ 128
          omega
        refine ⟨hlen, .keep (-control.toInt).toNat :: ts, ?_, ?_, ?_, ?_⟩
        · exact fun t hmem => (mem_cons.1 hmem).elim (fun heq => heq ▸ ht) (hts t)
        · rw [encode_cons, Token.encode, Int.toNat_of_nonneg (by omega), Int.neg_neg,
            Int8.ofInt_toInt, singleton_append, cons_append, ← heq]
        · rw [covered_cons, Token.span, Nat.add_assoc]
        · right
          rcases hcases with rfl | hle | ⟨us, n, rfl, hn, hus⟩
          · exact .inr ⟨[], (-control.toInt).toNat, rfl, ht, by simpa [covered] using hp⟩
          · exact .inl hle
          · refine .inr ⟨.keep (-control.toInt).toNat :: us, n, rfl, hn, ?_⟩
            rw [covered_cons, Token.span]
            omega
      · cases h
        exact ⟨rfl, [], by simp, rfl, rfl, .inl rfl⟩

theorem Wraps.not_applies (hlen : record.length ≤ 65535)
    (hsize : differences.length ≤ MAX_DIFFERENCES) (hwraps : Wraps record differences) :
    ¬ Applies record differences := by
  have hmax : ¬ MAX_DIFFERENCES < differences.length := by omega
  obtain ⟨ts, n, hts, hn, heq, hspan, hwrap⟩ := hwraps
  intro h
  rw [encode_append, encode_cons, encode_nil, append_nil, Token.encode] at heq
  obtain ⟨fuel, record', hle, hlen', hloop⟩ := @applyLoop_encode differences.length 0 record ts
    [Int8.ofInt (-(n : Int))] (by rw [heq]) hts (by omega)
  obtain ⟨fuel, rfl⟩ : ∃ f, fuel = f + 1 := ⟨fuel - 1, by simp at hle; omega⟩
  have hneg : ¬ (0 : Int) < -n := by omega
  have hlast : applyLoop (fuel + 1) record' (0 + covered ts) [Int8.ofInt (-(n : Int))] =
      .ok (record', covered ts + n, []) := by
    simp only [applyLoop, toInt_keep hn, Nat.zero_add,
      if_pos (by omega : covered ts < record'.length), if_neg hneg, Int.neg_neg, Int.toNat_natCast]
  rw [← heq, hlast] at hloop
  have hushort : ushort (covered ts + n) = covered ts + n - 65536 := by
    simp only [ushort]
    omega
  rw [Applies, sqzApplyDifferences, if_neg hmax, hloop] at h
  change match (if record.length < ushort (covered ts + n) ∨ ([] : List SCHAR) ≠ [] then
      Except.error (BugCheck.mk 177) else Except.ok (ushort (covered ts + n), record')) with
    | .error _ => True
    | .ok (length, record') => ∃ ts, (∀ t ∈ ts, Announced t) ∧
      differences = encode Int8.ofInt ts ∧ length = covered ts ∧ length ≤ record.length ∧
      record'.length = record.length at h
  rw [if_neg (by simp only [ne_eq, not_true_eq_false, or_false]; omega)] at h
  obtain ⟨us, hus, heq', hcovered, -⟩ := h
  have htokens : ∀ t ∈ ts ++ [Token.keep n], Announced t := by
    intro t ht
    rcases mem_append.1 ht with ht | ht
    · exact hts t ht
    · rw [mem_singleton.1 ht]
      exact hn
  have hsame := encode_injective htokens hus (by
    rw [encode_append, encode_cons, encode_nil, append_nil, Token.encode, ← heq, heq'])
  rw [covered_append, covered_cons, Token.span] at hsame
  omega

theorem applies_of_not_wraps (hlen : record.length ≤ 65535)
    (hsize : differences.length ≤ MAX_DIFFERENCES) (hwrap : ¬ Wraps record differences) :
    Applies record differences := by
  have hmax : ¬ MAX_DIFFERENCES < differences.length := by omega
  rw [Applies, sqzApplyDifferences, if_neg hmax]
  cases hloop : applyLoop differences.length record 0 differences with
  | error e => trivial
  | ok r =>
    obtain ⟨record', q, left⟩ := r
    obtain ⟨hlen', ts, hts, heq, rfl, hcases⟩ := applyLoop_ok le_rfl hloop
    change match (if record.length < ushort (0 + covered ts) ∨ left ≠ [] then
        Except.error (BugCheck.mk 177) else Except.ok (ushort (0 + covered ts), record')) with
      | .error _ => True
      | .ok (length, record') => ∃ ts, (∀ t ∈ ts, Announced t) ∧
        differences = encode Int8.ofInt ts ∧ length = covered ts ∧ length ≤ record.length ∧
        record'.length = record.length
    split_ifs with hbad
    · trivial
    · rw [not_or, not_lt, not_ne_iff] at hbad
      obtain ⟨hfits, rfl⟩ := hbad
      rw [append_nil] at heq
      rw [Nat.zero_add] at hfits hcases ⊢
      have hshort : covered ts < 65536 := by
        rcases hcases with rfl | hle | ⟨us, n, rfl, hn, hus⟩
        · simp [covered]
        · omega
        · by_contra hge
          have hus' : ∀ t ∈ us, Announced t := fun t ht => hts t (mem_append_left _ ht)
          rw [covered_append, covered_cons, Token.span] at hge
          simp only [covered, map_nil, sum_nil] at hge
          exact hwrap ⟨us, n, hus', hn, heq, by omega, by simp only [covered]; omega⟩
      rw [ushort_of_lt hshort] at hfits ⊢
      exact ⟨ts, hts, heq, rfl, hfits, hlen'⟩

/-- The application of whatever delta is safe if and only if the length does not wrap. -/
theorem sqz_apply_damaged (record differences : List SCHAR) (hlen : record.length ≤ 65535)
    (hsize : differences.length ≤ MAX_DIFFERENCES) :
    Applies record differences ↔ ¬ Wraps record differences :=
  ⟨fun h hwraps => hwraps.not_applies hlen hsize h, applies_of_not_wraps hlen hsize⟩

theorem sqz_apply_damaged_three :
    Applies [1, 2, 3] [-1, 1, 9] ↔ ¬ Wraps [1, 2, 3] [-1, 1, 9] :=
  sqz_apply_damaged [1, 2, 3] [-1, 1, 9] (by decide) (by decide)

theorem skips (n : Nat) :
    encode Int8.ofInt (replicate n (.keep 128)) = replicate n (-128 : SCHAR) ∧
      covered (replicate n (.keep 128)) = n * 128 := by
  induction n with
  | zero => exact ⟨rfl, rfl⟩
  | succ n ih =>
    rw [replicate_succ, replicate_succ, encode_cons, covered_cons, ih.1, ih.2,
      Token.span, Nat.succ_mul, Nat.add_comm]
    exact ⟨rfl, rfl⟩

/-- 512 times 128 bytes are skipped in a record of 65535. -/
theorem sqz_apply_wraps :
    ¬ ∀ record differences : List SCHAR, record.length ≤ 65535 →
      differences.length ≤ MAX_DIFFERENCES → Applies record differences := by
  intro h
  obtain ⟨record, hlen⟩ : ∃ record : List SCHAR, record.length = 65535 :=
    ⟨replicate 65535 0, length_replicate⟩
  obtain ⟨differences, heq⟩ : ∃ differences : List SCHAR,
    differences = replicate (511 + 1) (-128) := ⟨_, rfl⟩
  have hsize : differences.length ≤ MAX_DIFFERENCES := by
    rw [heq, length_replicate]
    decide
  have hwraps : Wraps record differences := by
    refine ⟨replicate 511 (.keep 128), 128, ?_, le_rfl, ?_, ?_, ?_⟩
    · intro t ht
      rw [eq_of_mem_replicate ht]
      exact le_refl 128
    · rw [heq, encode_append, (skips 511).1, replicate_succ']
      rfl
    · rw [(skips 511).2, hlen]
      decide
    · rw [(skips 511).2]
  exact hwraps.not_applies hlen.le hsize (h record differences hlen.le hsize)

end Differences

end Firebird.Sqz
