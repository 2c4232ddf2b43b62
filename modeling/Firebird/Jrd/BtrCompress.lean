import Mathlib.Algebra.Order.Group.Int
import Firebird.Lib.Padded
import Firebird.Lib.Words
import Firebird.Jrd.BtrCompound
import Firebird.Jrd.BtrKeys

/-!
# Keys of strings and dates

`compress` makes the data of an index key from the value of one segment, and `CVT2_compare` compares
two values. The types are those whose keys do not go through a `double`, and the on-disk structure
is version 11.
-/
namespace Firebird.Jrd.Btr

open Lib Padded List

def maxKey : Nat := 4096

/-- The size of `key_data`. -/
def keyDataSize : Nat := maxKey + 1

/-- `ISC_TIME_SECONDS_PRECISION` units of a day. -/
def unitsPerDay : Nat := 24 * 60 * 60 * 10000

/-- The `idx_itype` of a segment. -/
inductive Itype
  | string
  | byteArray
  | sqlDate
  | sqlTime
  | timestamp2
  deriving DecidableEq

/-- The values of a segment. A string is shorter than a key, which is checked when an index is
created. -/
inductive Datum : Itype → Type
  | string (data : List UInt8) (h : data.length < maxKey) : Datum .string
  | byteArray (data : List UInt8) (h : data.length < maxKey) : Datum .byteArray
  | sqlDate (date : Int) (h : -2 ^ 31 ≤ date ∧ date < 2 ^ 31) : Datum .sqlDate
  | sqlTime (time : Nat) (h : time < unitsPerDay) : Datum .sqlTime
  | timestamp2 (date : Int) (time : Nat) (h : -2 ^ 31 ≤ date ∧ date < 2 ^ 31)
      (h' : time < unitsPerDay) : Datum .timestamp2

def descEndValuePrefix : UInt8 := 0x01

def descEndValueCheck : UInt8 := 0x00

/-- Whether a key that starts with the byte needs the prefix in a descending index. -/
def isEndValue (b : UInt8) : Bool := b == descEndValuePrefix || b == descEndValueCheck

/-- The branch of `compress` for strings. -/
def compressText (pad : UInt8) (descending : Bool) (data : List UInt8) : Segment :=
  match data with
  | b :: _ =>
    let length := min data.length keyDataSize
    if descending && isEndValue b then
      let length := if length + 1 > keyDataSize then keyDataSize - 1 else length
      ⟨false, chop pad (descEndValuePrefix :: data.take length), false⟩
    else ⟨false, chop pad (data.take length), false⟩
  | [] =>
    if descending && isEndValue pad then ⟨false, chop pad [descEndValuePrefix, pad], true⟩
    else ⟨false, chop pad [pad], true⟩

/-- The bytes of a number of `width` bytes, the first one highest. -/
def bigEndian : Nat → Nat → List UInt8
  | 0, _ => []
  | width + 1, n => UInt8.ofNat (n / 256 ^ width) :: bigEndian width n

/-- `key->key_data[0] ^= 1 << 7` -/
def zapSign : List UInt8 → List UInt8
  | [] => []
  | b :: l => (b ^^^ 0x80) :: l

/-- The branch of `compress` for numbers, which are not negative doubles. -/
def compressNumber (descending : Bool) (bytes : List UInt8) : Segment :=
  match chop 0 (zapSign bytes) with
  | [] => ⟨false, [], false⟩
  | b :: l =>
    if descending && isEndValue b then ⟨false, descEndValuePrefix :: b :: l, false⟩
    else ⟨false, b :: l, false⟩

variable {t : Itype}

/-- `compress`; `none` is the state `NULL`. -/
def compress (descending : Bool) : Option (Datum t) → Segment
  | none => if descending then ⟨true, [0], false⟩ else ⟨true, [], false⟩
  | some (.string data _) => compressText 0x20 descending data
  | some (.byteArray data _) => compressText 0 descending data
  | some (.sqlDate date _) => compressNumber descending (bigEndian 4 (BitVec.ofInt 32 date).toNat)
  | some (.sqlTime time _) => compressNumber descending (bigEndian 4 time)
  | some (.timestamp2 date time _ _) =>
    compressNumber descending (bigEndian 8 (BitVec.ofInt 64 (date * unitsPerDay + time)).toNat)

def segmentKey (descending : Bool) (x : Option (Datum t)) : List UInt8 :=
  let data := (compress descending x).keyData
  if descending then btrComplementKey data else data

def compareFill (pad : UInt8) : List UInt8 → Ordering
  | [] => .eq
  | b :: p2 => if b ≠ pad then if pad > b then .gt else .lt else compareFill pad p2

/-- The loops of `CVT2_compare` for strings that are compared byte by byte. -/
def compareText (pad : UInt8) : List UInt8 → List UInt8 → Ordering
  | [], p2 => compareFill pad p2
  | a :: p1, [] => if a ≠ pad then if a > pad then .gt else .lt else compareText pad p1 []
  | a :: p1, b :: p2 => if a ≠ b then if a > b then .gt else .lt else compareText pad p1 p2

/-- `CVT2_compare` for two values of one type; the pad is 0 if the character set is binary. -/
def cvt2Compare : Datum t → Datum t → Ordering
  | .string p1 _, .string p2 _ => compareText 0x20 p1 p2
  | .byteArray p1 _, .byteArray p2 _ => compareText 0 p1 p2
  | .sqlDate p1 _, .sqlDate p2 _ => if p1 = p2 then .eq else if p1 > p2 then .gt else .lt
  | .sqlTime p1 _, .sqlTime p2 _ => if p1 = p2 then .eq else if p1 > p2 then .gt else .lt
  | .timestamp2 date1 time1 _ _, .timestamp2 date2 time2 _ _ =>
    if date1 > date2 then .gt
    else if date1 < date2 then .lt
    else if time1 > time2 then .gt
    else if time1 < time2 then .lt
    else .eq

/-- The values in order, with `NULL` in front. -/
def compareValues : Option (Datum t) → Option (Datum t) → Ordering
  | none, none => .eq
  | none, some _ => .lt
  | some _, none => .gt
  | some x, some y => cvt2Compare x y

def keyCompare (descending : Bool) : List UInt8 → List UInt8 → Ordering
  | [], [] => .eq
  | [], _ :: _ => if descending then .gt else .lt
  | _ :: _, [] => if descending then .lt else .gt
  | a :: p, b :: q => if a > b then .gt else if a < b then .lt else keyCompare descending p q

/-- The walk of `find_node_start_point` goes behind the nodes whose keys are below the key. -/
theorem walk_eq_go_iff {descending : Bool} {key k : List UInt8} :
    (∃ matched, walk descending false key k = .go matched) ↔ keyCompare descending k key = .lt := by
  induction key generalizing k with
  | nil => cases k <;> cases descending <;> simp [walk, keyCompare]
  | cons a key ih =>
    cases k with
    | nil => cases descending <;> simp [walk, keyCompare]
    | cons b k =>
      rw [walk, keyCompare]
      by_cases hab : a > b
      · simp [hab, UInt8.lt_asymm hab]
      · by_cases hba : a < b
        · simp [hba, hab]
        · rw [if_neg hab, if_neg hba, if_neg hba, if_neg hab, ← ih]
          cases walk descending false key k <;> simp [Walk.succ]

theorem compare_byte (a b : UInt8) :
    compare a b = if a > b then .gt else if a < b then .lt else .eq := by
  rcases lt_trichotomy a.toNat b.toNat with h | h | h
  · rw [if_neg (by simp [UInt8.lt_iff_toNat_lt]; omega), if_pos (UInt8.lt_iff_toNat_lt.2 h)]
    exact Std.compare_eq_lt.2 (UInt8.lt_iff_toNat_lt.2 h)
  · obtain rfl := UInt8.toNat_inj.1 h
    simp
  · rw [if_pos (UInt8.lt_iff_toNat_lt.2 h)]
    exact Std.compare_eq_gt.2 (UInt8.lt_iff_toNat_lt.2 h)

theorem keyCompare_false (p q : List UInt8) : keyCompare false p q = List.compareLex compare p
    q := by
  induction p generalizing q with
  | nil =>
    cases q with
    | nil => rfl
    | cons b q => rfl
  | cons a p ih =>
    cases q with
    | nil => rfl
    | cons b q =>
      rw [keyCompare, List.compareLex_cons_cons, compare_byte, ih]
      split_ifs <;> rfl

theorem xor_ones : ∀ n < 256, n ^^^ 255 = 255 - n := by decide +kernel

theorem xor_sign : ∀ n < 256, n ^^^ 128 = (n + 128) % 256 := by decide +kernel

theorem complement_lt_iff {a b : UInt8} : a ^^^ 255 < b ^^^ 255 ↔ b < a := by
  rw [UInt8.lt_iff_toNat_lt, UInt8.lt_iff_toNat_lt, UInt8.toNat_xor, UInt8.toNat_xor]
  have ha := a.toNat_lt
  have hb := b.toNat_lt
  change a.toNat ^^^ 255 < b.toNat ^^^ 255 ↔ _
  rw [xor_ones _ ha, xor_ones _ hb]
  omega

theorem keyCompare_complement (p q : List UInt8) :
    keyCompare true (btrComplementKey p) (btrComplementKey q) = keyCompare false q p := by
  induction p generalizing q with
  | nil => cases q <;> rfl
  | cons a p ih =>
    cases q with
    | nil => rfl
    | cons b q =>
      simp only [btrComplementKey] at ih ⊢
      simp [keyCompare, complement_lt_iff, ih]

theorem ite_ne_eq_then (a b : UInt8) (o : Ordering) :
    (if a ≠ b then if a > b then .gt else .lt else o) = (compare a b).then o := by
  rw [compare_byte]
  rcases byte_trichotomy a b with h | rfl | h
  · rw [if_pos (UInt8.ne_of_lt h), if_neg (UInt8.lt_asymm h), if_neg (UInt8.lt_asymm h), if_pos h]
    rfl
  · simp
  · rw [if_pos (UInt8.ne_of_lt h).symm, if_pos h, if_pos h]
    rfl

theorem compareFill_eq (pad : UInt8) (p2 : List UInt8) :
    compareFill pad p2 = compareRest pad p2 := by
  induction p2 with
  | nil => rfl
  | cons b p2 ih =>
    rw [compareFill, compareRest, ih, ← ite_ne_eq_then]
    simp [ne_comm]

theorem compareText_eq (pad : UInt8) (p1 p2 : List UInt8) :
    compareText pad p1 p2 = padCompare pad p1 p2 := by
  induction p1 generalizing p2 with
  | nil => rw [compareText, padCompare, compareFill_eq]
  | cons a p1 ih =>
    cases p2 with
    | nil => rw [compareText, padCompare, ih, ite_ne_eq_then]
    | cons b p2 => rw [compareText, padCompare, ih, ite_ne_eq_then]

/-! ## Strings -/

def fill (pad : UInt8) : List UInt8 → List UInt8
  | [] => [pad]
  | b :: data => b :: data

def withPrefix : List UInt8 → List UInt8
  | [] => []
  | b :: l => if isEndValue b then descEndValuePrefix :: b :: l else b :: l

section

variable {pad : UInt8} {data p q : List UInt8}

theorem fill_ne_nil (pad : UInt8) (data : List UInt8) : fill pad data ≠ [] := by
  cases data <;> simp [fill]

theorem padCompare_fill (pad : UInt8) (p q : List UInt8) :
    padCompare pad (fill pad p) (fill pad q) = padCompare pad p q := by
  have hfill (p q : List UInt8) : padCompare pad (fill pad p) q = padCompare pad p q := by
    cases p with
    | nil => exact padCompare_append_replicate 1 [] q
    | cons a p => rfl
  rw [hfill, padCompare_swap, hfill, ← padCompare_swap]

theorem compressText_false (pad : UInt8) (h : data.length < maxKey) :
    (compressText pad false data).keyData = chop pad (fill pad data) := by
  cases data with
  | nil => rfl
  | cons b data =>
    rw [compressText]
    simp only [Bool.false_and, Bool.false_eq_true, if_false, fill]
    rw [take_of_length_le (by rw [keyDataSize]; omega)]

theorem compressText_true (pad : UInt8) (h : data.length < maxKey) :
    (compressText pad true data).keyData = chop pad (withPrefix (fill pad data)) := by
  cases data with
  | nil =>
    rw [compressText, fill, withPrefix, Bool.true_and]
    split_ifs <;> rfl
  | cons b data =>
    have hlength : min (b :: data).length keyDataSize = (b :: data).length := by
      rw [keyDataSize]
      omega
    have hsize : ¬ (b :: data).length + 1 > keyDataSize := by
      rw [keyDataSize]
      omega
    rw [compressText, fill, withPrefix, Bool.true_and]
    simp only [hlength, if_neg hsize, take_length]
    split_ifs <;> rfl

theorem isEndValue_iff (b : UInt8) : isEndValue b = true ↔ b.toNat ≤ 1 := by
  rw [isEndValue, Bool.or_eq_true, beq_iff_eq, beq_iff_eq, ← UInt8.toNat_inj, ← UInt8.toNat_inj]
  change b.toNat = 1 ∨ b.toNat = 0 ↔ _
  omega

theorem compare_eq_lt_of_isEndValue {a b : UInt8} (ha : isEndValue a = true)
    (hb : isEndValue b = false) : compare a b = .lt := by
  have hb' : ¬ b.toNat ≤ 1 := by rw [← isEndValue_iff, hb]; decide
  have ha' := (isEndValue_iff a).1 ha
  exact Std.compare_eq_lt.2 (UInt8.lt_iff_toNat_lt.2 (by omega))

theorem withPrefix_compare (cmp : List UInt8 → List UInt8 → Ordering)
    (hcons : ∀ a b p q, cmp (a :: p) (b :: q) = (compare a b).then (cmp p q)) (hp : p ≠ [])
    (hq : q ≠ []) : cmp (withPrefix p) (withPrefix q) = cmp p q := by
  obtain ⟨a, p, rfl⟩ := exists_cons_of_ne_nil hp
  obtain ⟨b, q, rfl⟩ := exists_cons_of_ne_nil hq
  have hself : isEndValue descEndValuePrefix = true := rfl
  rw [withPrefix, withPrefix]
  cases ha : isEndValue a <;> cases hb : isEndValue b
  · rfl
  · simp only [if_true, Bool.false_eq_true, if_false, hcons]
    rw [Std.OrientedOrd.eq_swap, compare_eq_lt_of_isEndValue hself ha, Std.OrientedOrd.eq_swap
      (a := a),
      compare_eq_lt_of_isEndValue hb ha]
    rfl
  · simp only [if_true, Bool.false_eq_true, if_false, hcons]
    rw [compare_eq_lt_of_isEndValue hself hb, compare_eq_lt_of_isEndValue ha hb]
    rfl
  · simp only [if_true]
    rw [hcons, Std.ReflOrd.compare_self]
    rfl

theorem startsBelow_zero (p : List UInt8) : startsBelow 0 p = false := by
  induction p with
  | nil => rfl
  | cons a p ih =>
    have hzero : ¬ a < 0 := UInt8.not_lt_zero
    rw [startsBelow, compare_byte, if_neg hzero]
    split_ifs
    · rfl
    · exact ih

theorem goesBelow_zero (p q : List UInt8) : goesBelow 0 p q = false := by
  induction p generalizing q with
  | nil => exact startsBelow_zero q
  | cons a p ih =>
    cases q with
    | nil => rfl
    | cons b q => rw [goesBelow, ih, Bool.and_false]

theorem rdropWhile_cons {b : UInt8} (hb : b ≠ pad) (l : List UInt8) :
    (b :: l).rdropWhile (· == pad) = b :: l.rdropWhile (· == pad) := by
  induction l using List.reverseRecOn with
  | nil => rw [rdropWhile_singleton, if_neg (by simpa using hb), rdropWhile_nil]
  | append_singleton l a ih =>
    rw [← cons_append, rdropWhile_concat, rdropWhile_concat, ih]
    split_ifs <;> rfl

theorem chop_withPrefix (hpad : isEndValue pad = false) (p : List UInt8) :
    chop pad (withPrefix p) = withPrefix (chop pad p) := by
  cases p with
  | nil => rfl
  | cons b l =>
    rw [withPrefix, chop, withPrefix]
    split_ifs with hb
    · have hne : b ≠ pad := by
        rintro rfl
        rw [hb] at hpad
        cases hpad
      rw [chop, rdropWhile_cons hne]
    · rfl

theorem compareText_eq_iff (p q : List UInt8) (hp : p.length < maxKey) (hq : q.length < maxKey) :
    keyCompare false (compressText pad false p).keyData (compressText pad false q).keyData =
      compareText pad p q ↔
    goesBelow pad (chop pad (fill pad p)) (chop pad (fill pad q)) = false ∧
      goesBelow pad (chop pad (fill pad q)) (chop pad (fill pad p)) = false := by
  rw [compressText_false pad hp, compressText_false pad hq, keyCompare_false, compareText_eq,
    ← padCompare_fill, eq_comm]
  exact padCompare_eq_compareLex_chop_iff _ _ (fill_ne_nil pad p) (fill_ne_nil pad q)

theorem chop_ne_nil (h : p ≠ []) : chop pad p ≠ [] := by
  cases p with
  | nil => exact absurd rfl h
  | cons a p => simp [chop]

theorem withPrefix_ne_nil (h : p ≠ []) : withPrefix p ≠ [] := by
  cases p with
  | nil => exact absurd rfl h
  | cons a p =>
    rw [withPrefix]
    split_ifs <;> simp

theorem compareLex_chop_zero (hp : p ≠ []) (hq : q ≠ []) :
    List.compareLex compare (chop 0 p) (chop 0 q) = padCompare 0 p q :=
  ((padCompare_eq_compareLex_chop_iff p q hp hq).2 ⟨goesBelow_zero _ _, goesBelow_zero _ _⟩).symm

theorem keyCompare_compressText_true (hpad : pad = 0 ∨ isEndValue pad = false)
    (hp : p.length < maxKey) (hq : q.length < maxKey) :
    keyCompare false (compressText pad true p).keyData (compressText pad true q).keyData =
      keyCompare false (compressText pad false p).keyData (compressText pad false q).keyData := by
  have hnp := fill_ne_nil pad p
  have hnq := fill_ne_nil pad q
  rw [compressText_true pad hp, compressText_true pad hq, compressText_false pad hp,
    compressText_false pad hq, keyCompare_false, keyCompare_false]
  rcases hpad with rfl | hpad
  · -- both are in the order of the padded strings
    rw [compareLex_chop_zero (withPrefix_ne_nil hnp) (withPrefix_ne_nil hnq),
      compareLex_chop_zero hnp hnq]
    exact withPrefix_compare _ (fun _ _ _ _ => rfl) hnp hnq
  · rw [chop_withPrefix hpad, chop_withPrefix hpad]
    exact withPrefix_compare _ (fun _ _ _ _ => List.compareLex_cons_cons) (chop_ne_nil hnp)
      (chop_ne_nil hnq)

end

theorem mod_pow_succ_eq (n width : Nat) :
    n % 256 ^ (width + 1) = n % 256 ^ width + 256 ^ width * (n / 256 ^ width % 256) :=
  Nat.mod_pow_succ

theorem compareLex_bigEndian (width m n : Nat) :
    List.compareLex compare (bigEndian width m) (bigEndian width n) =
      compare (m % 256 ^ width) (n % 256 ^ width) := by
  induction width with
  | zero => simp [bigEndian, Nat.mod_one]
  | succ width ih =>
    have hpos : 0 < 256 ^ width := Nat.pow_pos (by decide)
    rw [bigEndian, bigEndian, List.compareLex_cons_cons, ih, ← Words.compare_toNat,
      UInt8.toNat_ofNat', UInt8.toNat_ofNat',
      ← Words.compare_digits (Nat.mod_lt _ hpos) (Nat.mod_lt _ hpos), mod_pow_succ_eq,
      mod_pow_succ_eq]

theorem compareLex_zapSign (width m n : Nat) :
    List.compareLex compare (zapSign (bigEndian (width + 1) m))
      (zapSign (bigEndian (width + 1) n)) =
      compare ((m + 128 * 256 ^ width) % 256 ^ (width + 1))
        ((n + 128 * 256 ^ width) % 256 ^ (width + 1)) := by
  have hpos : 0 < 256 ^ width := Nat.pow_pos (by decide)
  have hbyte (n : Nat) : (UInt8.ofNat (n / 256 ^ width) ^^^ 0x80).toNat =
      (n + 128 * 256 ^ width) / 256 ^ width % 256 := by
    rw [UInt8.toNat_xor, UInt8.toNat_ofNat', Nat.add_mul_div_right _ _ hpos]
    change n / 256 ^ width % 256 ^^^ 128 = _
    rw [xor_sign _ (Nat.mod_lt _ (by decide)), Nat.mod_add_mod]
  have hrest (n : Nat) : n % 256 ^ width = (n + 128 * 256 ^ width) % 256 ^ width :=
    (Nat.add_mul_mod_self_right _ _ _).symm
  rw [bigEndian, bigEndian, zapSign, zapSign, List.compareLex_cons_cons, compareLex_bigEndian,
    ← Words.compare_toNat, hbyte, hbyte, hrest m, hrest n,
    ← Words.compare_digits (Nat.mod_lt _ hpos) (Nat.mod_lt _ hpos), mod_pow_succ_eq,
    mod_pow_succ_eq]

theorem length_bigEndian (width n : Nat) : (bigEndian width n).length = width := by
  induction width with
  | zero => rfl
  | succ width ih => rw [bigEndian, length_cons, ih]

theorem compressNumber_false (bytes : List UInt8) :
    (compressNumber false bytes).keyData = chop 0 (zapSign bytes) := by
  rw [compressNumber]
  split <;> simp_all

theorem compressNumber_true (bytes : List UInt8) :
    (compressNumber true bytes).keyData = withPrefix (chop 0 (zapSign bytes)) := by
  rw [compressNumber]
  split
  · simp_all [withPrefix]
  · rename_i b l h
    rw [h, withPrefix, Bool.true_and]
    split_ifs <;> rfl

theorem keyCompare_compressNumber (descending : Bool) (width m n : Nat) :
    keyCompare false (compressNumber descending (bigEndian (width + 1) m)).keyData
        (compressNumber descending (bigEndian (width + 1) n)).keyData =
      compare ((m + 128 * 256 ^ width) % 256 ^ (width + 1))
        ((n + 128 * 256 ^ width) % 256 ^ (width + 1)) := by
  have hne (n : Nat) : zapSign (bigEndian (width + 1) n) ≠ [] := by simp [bigEndian, zapSign]
  have hlength (n : Nat) : (zapSign (bigEndian (width + 1) n)).length = width + 1 := by
    simp [bigEndian, zapSign, length_bigEndian]
  have hchop : List.compareLex compare (chop 0 (zapSign (bigEndian (width + 1) m)))
      (chop 0 (zapSign (bigEndian (width + 1) n))) = _ :=
    (compareLex_chop_zero (hne m) (hne n)).trans
      ((padCompare_eq_compareLex ((hlength m).trans (hlength n).symm)).trans
        (compareLex_zapSign width m n))
  rw [keyCompare_false, ← hchop]
  cases descending with
  | false => rw [compressNumber_false, compressNumber_false]
  | true =>
    rw [compressNumber_true, compressNumber_true]
    exact withPrefix_compare _ (fun _ _ _ _ => List.compareLex_cons_cons) (chop_ne_nil (hne m))
      (chop_ne_nil (hne n))

theorem bias_toNat {width : Nat} (z : Int) (hlow : -(128 * 256 ^ width : Nat) ≤ z)
    (hhigh : z < (128 * 256 ^ width : Nat)) :
    ((BitVec.ofInt (8 * (width + 1)) z).toNat + 128 * 256 ^ width) % 256 ^ (width + 1) =
      (z + (128 * 256 ^ width : Nat)).toNat := by
  have hpow' : 256 ^ (width + 1) = 2 * (128 * 256 ^ width) := by
    omega
  have hpow : 2 ^ (8 * (width + 1)) = 2 * (128 * 256 ^ width) := by
    rw [Nat.pow_mul]
    exact hpow'
  rw [BitVec.toNat_ofInt, hpow, hpow']
  generalize 128 * 256 ^ width = half at *
  by_cases hz : 0 ≤ z
  · rw [Int.emod_eq_of_lt hz (by omega), Nat.mod_eq_of_lt (by omega)]
    omega
  · rw [← Int.add_mul_emod_self_left z (2 * half : Nat) 1, Int.emod_eq_of_lt (by omega) (by omega),
      Nat.mod_eq_sub_mod (by omega), Nat.mod_eq_of_lt (by omega)]
    omega

theorem keyCompare_number (descending : Bool) (width : Nat) (y z : Int)
    (hy : -(128 * 256 ^ width : Nat) ≤ y ∧ y < (128 * 256 ^ width : Nat))
    (hz : -(128 * 256 ^ width : Nat) ≤ z ∧ z < (128 * 256 ^ width : Nat)) :
    keyCompare false
        (compressNumber descending (bigEndian (width + 1)
          (BitVec.ofInt (8 * (width + 1)) y).toNat)).keyData
        (compressNumber descending (bigEndian (width + 1)
          (BitVec.ofInt (8 * (width + 1)) z).toNat)).keyData =
      compare y z := by
  rw [keyCompare_compressNumber, bias_toNat y hy.1 hy.2, bias_toNat z hz.1 hz.2]
  generalize 128 * 256 ^ width = half at *
  rcases lt_trichotomy y z with h | rfl | h
  · rw [compare_lt_iff_lt.2 h, compare_lt_iff_lt.2 (by omega)]
  · simp
  · rw [compare_gt_iff_gt.2 h, compare_gt_iff_gt.2 (by omega)]

theorem ite_eq_compare (y z : Int) :
    (if y = z then .eq else if y > z then .gt else .lt) = compare y z := by
  rcases lt_trichotomy y z with h | rfl | h
  · rw [if_neg h.ne, if_neg h.not_gt, compare_lt_iff_lt.2 h]
  · simp
  · rw [if_neg h.ne', if_pos h, compare_gt_iff_gt.2 h]

theorem keyCompare_compress_sqlDate (descending : Bool) (x y : Datum .sqlDate) :
    keyCompare false (compress descending (some x)).keyData (compress descending (some y)).keyData =
      cvt2Compare x y := by
  cases x with | sqlDate date h =>
  cases y with | sqlDate date' h' =>
  simp only [cvt2Compare]
  rw [ite_eq_compare]
  exact keyCompare_number descending 3 date date' h h'

theorem keyCompare_compress_sqlTime (descending : Bool) (x y : Datum .sqlTime) :
    keyCompare false (compress descending (some x)).keyData (compress descending (some y)).keyData =
      cvt2Compare x y := by
  cases x with | sqlTime time h =>
  cases y with | sqlTime time' h' =>
  have hword {n : Nat} (hn : n < unitsPerDay) : (BitVec.ofInt 32 n).toNat = n := by
    rw [unitsPerDay] at hn
    rw [BitVec.toNat_ofInt]
    omega
  have hrange {n : Nat} (hn : n < unitsPerDay) :
      -(128 * 256 ^ 3 : Nat) ≤ (n : Int) ∧ (n : Int) < (128 * 256 ^ 3 : Nat) := by
    rw [unitsPerDay] at hn
    omega
  have hnumber := keyCompare_number descending 3 time time' (hrange h) (hrange h')
  rw [← ite_eq_compare] at hnumber
  simp only [compress, cvt2Compare]
  rw [show 8 * (3 + 1) = 32 from rfl, hword h, hword h'] at hnumber
  rw [hnumber]
  simp

theorem keyCompare_compress_timestamp2 (descending : Bool) (x y : Datum .timestamp2) :
    keyCompare false (compress descending (some x)).keyData (compress descending (some y)).keyData =
      cvt2Compare x y := by
  cases x with | timestamp2 date time h ht =>
  cases y with | timestamp2 date' time' h' ht' =>
  rw [unitsPerDay] at ht ht'
  simp only [cvt2Compare]
  have hnumber := keyCompare_number descending 7 (date * unitsPerDay + time)
    (date' * unitsPerDay + time') (by rw [unitsPerDay]; omega) (by rw [unitsPerDay]; omega)
  refine hnumber.trans ?_
  rw [← ite_eq_compare, unitsPerDay]
  split_ifs <;> first | rfl | omega

/-- One of two strings goes on behind the other, without the spaces at their ends, with a character
below the space. -/
def PartsBelow : Option (Datum t) → Option (Datum t) → Prop
  | some (.string p _), some (.string q _) =>
    goesBelow 0x20 (chop 0x20 (fill 0x20 p)) (chop 0x20 (fill 0x20 q)) = true ∨
      goesBelow 0x20 (chop 0x20 (fill 0x20 q)) (chop 0x20 (fill 0x20 p)) = true
  | _, _ => False

theorem keyCompare_compress_some_iff (x y : Datum t) :
    keyCompare false (compress false (some x)).keyData (compress false (some y)).keyData =
      cvt2Compare x y ↔ ¬ PartsBelow (some x) (some y) := by
  cases t with
  | string =>
    cases x with | string p hp =>
    cases y with | string q hq =>
    simp only [compress, cvt2Compare, PartsBelow]
    rw [compareText_eq_iff p q hp hq, not_or, Bool.not_eq_true, Bool.not_eq_true]
  | byteArray =>
    cases x with | byteArray p hp =>
    cases y with | byteArray q hq =>
    refine iff_of_true ?_ id
    exact (compareText_eq_iff p q hp hq).2 ⟨goesBelow_zero _ _, goesBelow_zero _ _⟩
  | sqlDate => exact iff_of_true (keyCompare_compress_sqlDate false x y) (by cases x; exact id)
  | sqlTime => exact iff_of_true (keyCompare_compress_sqlTime false x y) (by cases x; exact id)
  | timestamp2 =>
    exact iff_of_true (keyCompare_compress_timestamp2 false x y) (by cases x; exact id)

theorem keyCompare_compress_some (x y : Datum t) :
    keyCompare false (compress true (some x)).keyData (compress true (some y)).keyData =
      keyCompare false (compress false (some x)).keyData (compress false (some y)).keyData := by
  cases t with
  | string =>
    cases x with | string p hp =>
    cases y with | string q hq =>
    exact keyCompare_compressText_true (.inr rfl) hp hq
  | byteArray =>
    cases x with | byteArray p hp =>
    cases y with | byteArray q hq =>
    exact keyCompare_compressText_true (.inl rfl) hp hq
  | sqlDate => rw [keyCompare_compress_sqlDate, keyCompare_compress_sqlDate]
  | sqlTime => rw [keyCompare_compress_sqlTime, keyCompare_compress_sqlTime]
  | timestamp2 => rw [keyCompare_compress_timestamp2, keyCompare_compress_timestamp2]

theorem withPrefix_head {p : List UInt8} (hp : p ≠ []) : ∃ b l, withPrefix p = b :: l ∧ 0 < b := by
  obtain ⟨b, l, rfl⟩ := exists_cons_of_ne_nil hp
  rw [withPrefix]
  split_ifs with hb
  · exact ⟨_, _, rfl, by decide⟩
  · refine ⟨_, _, rfl, UInt8.lt_iff_toNat_lt.2 ?_⟩
    rw [isEndValue_iff] at hb
    change 0 < b.toNat
    omega

theorem compress_some_head (x : Datum t) :
    (∃ b l, (compress false (some x)).keyData = b :: l) ∧
      ∃ b l, (compress true (some x)).keyData = b :: l ∧ 0 < b := by
  have htext (pad : UInt8) {data : List UInt8} (h : data.length < maxKey) :
      (∃ b l, (compressText pad false data).keyData = b :: l) ∧
        ∃ b l, (compressText pad true data).keyData = b :: l ∧ 0 < b := by
    rw [compressText_false pad h, compressText_true pad h]
    refine ⟨exists_cons_of_ne_nil (chop_ne_nil (fill_ne_nil pad data)), ?_⟩
    obtain ⟨b, l, heq, hpos⟩ := withPrefix_head (fill_ne_nil pad data)
    exact ⟨b, _, by rw [heq, chop], hpos⟩
  have hnumber (width n : Nat) :
      (∃ b l, (compressNumber false (bigEndian (width + 1) n)).keyData = b :: l) ∧
        ∃ b l, (compressNumber true (bigEndian (width + 1) n)).keyData = b :: l ∧ 0 < b := by
    have hne : chop 0 (zapSign (bigEndian (width + 1) n)) ≠ [] :=
      chop_ne_nil (by simp [bigEndian, zapSign])
    rw [compressNumber_false, compressNumber_true]
    exact ⟨exists_cons_of_ne_nil hne, withPrefix_head hne⟩
  cases x with
  | string data h => exact htext _ h
  | byteArray data h => exact htext _ h
  | sqlDate => exact hnumber 3 _
  | sqlTime => exact hnumber 3 _
  | timestamp2 => exact hnumber 7 _

theorem keyCompare_compress_false_iff (x y : Option (Datum t)) :
    keyCompare false (compress false x).keyData (compress false y).keyData = compareValues x y ↔
      ¬ PartsBelow x y := by
  cases x with
  | none =>
    cases y with
    | none => exact iff_of_true rfl id
    | some y =>
      obtain ⟨⟨b, l, heq⟩, -⟩ := compress_some_head y
      rw [heq]
      exact iff_of_true rfl id
  | some x =>
    cases y with
    | none =>
      obtain ⟨⟨b, l, heq⟩, -⟩ := compress_some_head x
      rw [heq]
      exact iff_of_true rfl (by cases x <;> exact id)
    | some y => exact keyCompare_compress_some_iff x y

theorem keyCompare_compress_true (x y : Option (Datum t)) :
    keyCompare false (compress true x).keyData (compress true y).keyData =
      keyCompare false (compress false x).keyData (compress false y).keyData := by
  cases x with
  | none =>
    cases y with
    | none => rfl
    | some y =>
      obtain ⟨⟨b, l, heq⟩, b', l', heq', hpos⟩ := compress_some_head y
      rw [heq, heq', compress, compress]
      simp [keyCompare, hpos]
  | some x =>
    cases y with
    | none =>
      obtain ⟨⟨b, l, heq⟩, b', l', heq', hpos⟩ := compress_some_head x
      rw [heq, heq', compress, compress]
      simp [keyCompare, hpos]
    | some y => exact keyCompare_compress_some x y

theorem keyCompare_swap (p q : List UInt8) : keyCompare false q p =
    (keyCompare false p q).swap := by
  rw [keyCompare_false, keyCompare_false]
  exact Std.OrientedOrd.eq_swap (α := List UInt8)

theorem keyCompare_eq_eq_iff (p q : List UInt8) : keyCompare false p q = .eq ↔ p = q := by
  rw [keyCompare_false]
  exact Std.LawfulEqOrd.compare_eq_iff_eq (α := List UInt8)

/-- The keys of two values in both kinds of indices: they are in the order of the values, and in the
reverse order if the index is descending, and they are the same for equal values only. -/
structure OrderEmbeds (x y : Option (Datum t)) : Prop where
  ascending : keyCompare false (segmentKey false x) (segmentKey false y) = compareValues x y
  ascending_eq : segmentKey false x = segmentKey false y ↔ compareValues x y = .eq
  descending : keyCompare true (segmentKey true x) (segmentKey true y) = (compareValues x y).swap
  descending_eq : segmentKey true x = segmentKey true y ↔ compareValues x y = .eq

theorem btrComplementKey_inj {p q : List UInt8} :
    btrComplementKey p = btrComplementKey q ↔ p = q :=
  (Function.LeftInverse.injective complement_complement).eq_iff

/-- Keys are in the order of the values exactly if no string goes on behind the other one with a
character below the space. -/
theorem orderEmbeds_iff (x y : Option (Datum t)) : OrderEmbeds x y ↔ ¬ PartsBelow x y := by
  rw [← keyCompare_compress_false_iff]
  constructor
  · exact fun h => h.ascending
  · intro h
    have hdesc : keyCompare true (segmentKey true x) (segmentKey true y) =
      (compareValues x y).swap := by
      rw [segmentKey, segmentKey, if_pos rfl, if_pos rfl, keyCompare_complement, keyCompare_swap,
        keyCompare_compress_true, h]
    refine ⟨h, ?_, hdesc, ?_⟩
    · rw [← h, keyCompare_eq_eq_iff]
      rfl
    · rw [segmentKey, segmentKey, if_pos rfl, if_pos rfl, btrComplementKey_inj,
        ← keyCompare_eq_eq_iff, keyCompare_compress_true, h]

/-- The strings `AB` and `AB\x01`. -/
theorem not_orderEmbeds :
    ¬ ∀ (t : Itype) (x y : Option (Datum t)), OrderEmbeds x y := by
  intro h
  have hkey := (h .string (some (.string [0x41, 0x42] (by decide)))
    (some (.string [0x41, 0x42, 0x01] (by decide)))).ascending
  exact absurd hkey (by decide)

end Firebird.Jrd.Btr
