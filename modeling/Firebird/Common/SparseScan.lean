import Firebird.Common.SparseAccessor

/-!
# Scanning the bits of buckets

The values of a bitmap in ascending order are the values of its buckets one after the other. A scan
in a bucket moves along this list: it leaves the values behind that it has passed.
-/
namespace Firebird.Common

open List

variable {n k i j m top : Nat} {c : Bucket n}

theorem twoPow_ne_zero (hi : i < n) : BitVec.twoPow n i ≠ 0 := by
  intro h
  have hbit := congrArg (fun x : BitVec n => x.getLsbD i) h
  simp [hi] at hbit

theorem twoPow_self (n : Nat) : BitVec.twoPow n n = 0 := by
  apply BitVec.eq_of_getLsbD_eq
  intro j hj
  simp

theorem and_twoPow_ne_zero (bits : BitVec n) (hi : i < n) :
    bits &&& BitVec.twoPow n i ≠ 0 ↔ bits.getLsbD i := by
  rw [BitVec.and_twoPow]
  cases bits.getLsbD i with
  | false => simp
  | true => simpa using twoPow_ne_zero hi

theorem twoPow_shiftLeft_one (n i : Nat) : BitVec.twoPow n i <<< 1 = BitVec.twoPow n (i + 1) := by
  rw [BitVec.twoPow, BitVec.twoPow, ← BitVec.shiftLeft_add]

/-- The mask of the bit before `m`; there is none before the first. -/
def maskBefore (n m : Nat) : BitVec n := if m = 0 then 0 else BitVec.twoPow n (m - 1)

theorem twoPow_ushiftRight_one (hi : i < n) : BitVec.twoPow n i >>> 1 = maskBefore n i := by
  apply BitVec.eq_of_getLsbD_eq
  intro j hj
  rw [maskBefore, BitVec.getLsbD_ushiftRight, BitVec.getLsbD_twoPow]
  split
  · rw [show (0 : BitVec n).getLsbD j = false by simp]
    simp
    omega
  · rw [BitVec.getLsbD_twoPow]
    simp only [hi, decide_true, Bool.true_and, show i - 1 < n by omega]
    rw [decide_eq_decide]
    omega

/-- The values of the bits below `i`. -/
def Bucket.below (c : Bucket n) (i : Nat) : List Nat :=
  ((List.range i).filter c.bits.getLsbD).map (c.startValue + ·)

/-- The values of the bits from `i` on. -/
def Bucket.above (c : Bucket n) (i : Nat) : List Nat :=
  ((List.range' i (n - i)).filter c.bits.getLsbD).map (c.startValue + ·)

def elements (items : List (Bucket n)) : List Nat := items.flatMap fun c => c.above 0

theorem Bucket.below_zero (c : Bucket n) : c.below 0 = [] := rfl

theorem Bucket.above_of_le (c : Bucket n) (h : n ≤ i) : c.above i = [] := by
  rw [Bucket.above, Nat.sub_eq_zero_of_le h]
  rfl

theorem Bucket.below_succ (c : Bucket n) (i : Nat) :
    c.below (i + 1) = c.below i ++ if c.bits.getLsbD i then [c.startValue + i] else [] := by
  rw [Bucket.below, Bucket.below, range_succ, filter_append, map_append]
  congr 1
  cases hbit : c.bits.getLsbD i <;> simp [hbit]

theorem Bucket.above_eq (c : Bucket n) (h : i < n) :
    c.above i = (if c.bits.getLsbD i then [c.startValue + i] else []) ++ c.above (i + 1) := by
  rw [Bucket.above, Bucket.above, show n - i = n - (i + 1) + 1 by omega, List.range'_succ]
  cases hbit : c.bits.getLsbD i <;> simp [hbit]

theorem Bucket.below_append_above (c : Bucket n) (h : i ≤ n) :
    c.below i ++ c.above i = c.above 0 := by
  induction i with
  | zero => rfl
  | succ i ih =>
    rw [← ih (by omega), c.above_eq (by omega : i < n), c.below_succ, append_assoc]

theorem Bucket.mem_below {v : Nat} :
    v ∈ c.below i ↔ ∃ j < i, c.bits.getLsbD j ∧ v = c.startValue + j := by
  simp only [Bucket.below, mem_map, mem_filter, mem_range]
  constructor
  · rintro ⟨j, ⟨hj, hbit⟩, rfl⟩
    exact ⟨j, hj, hbit, rfl⟩
  · rintro ⟨j, hj, hbit, rfl⟩
    exact ⟨j, ⟨hj, hbit⟩, rfl⟩

theorem Bucket.mem_above {v : Nat} :
    v ∈ c.above i ↔ ∃ j, i ≤ j ∧ c.bits.getLsbD j ∧ v = c.startValue + j := by
  simp only [Bucket.above, mem_map, mem_filter, mem_range'_1]
  constructor
  · rintro ⟨j, ⟨hj, hbit⟩, rfl⟩
    exact ⟨j, hj.1, hbit, rfl⟩
  · rintro ⟨j, hj, hbit, rfl⟩
    have hlt : j < n := BitVec.lt_of_getLsbD hbit
    exact ⟨j, ⟨⟨hj, by omega⟩, hbit⟩, rfl⟩

theorem Bucket.above_ne_nil (h : c.bits ≠ 0) : c.above 0 ≠ [] := by
  intro hnil
  apply h
  apply BitVec.eq_of_getLsbD_eq
  intro j hj
  cases hbit : c.bits.getLsbD j with
  | false => simp
  | true =>
    have hmem : c.startValue + j ∈ c.above 0 := Bucket.mem_above.2 ⟨j, Nat.zero_le j, hbit, rfl⟩
    rw [hnil] at hmem
    cases hmem

theorem Bucket.pairwise_above (c : Bucket n) (i : Nat) : (c.above i).Pairwise (· < ·) := by
  rw [Bucket.above, pairwise_map]
  have hrange : (range' i (n - i)).Pairwise (· < ·) := pairwise_lt_range'
  refine (hrange.filter _).imp ?_
  intro a b hab
  omega

theorem scanUp_spec (top : Nat) (c : Bucket n) {fuel : Nat} (hi : i ≤ n) (hfuel : n - i < fuel) :
    (c.above i = [] ∧ (SparseBitmap.scanUp top c.bits fuel (BitVec.twoPow n i)
      ((c.startValue + i) % top)).1 = false) ∨
    ∃ j < n, c.bits.getLsbD j ∧ c.above i = (c.startValue + j) :: c.above (j + 1) ∧
      c.below j = c.below i ∧
      SparseBitmap.scanUp top c.bits fuel (BitVec.twoPow n i) ((c.startValue + i) % top) =
        (true, BitVec.twoPow n j, (c.startValue + j) % top) := by
  induction fuel generalizing i with
  | zero => omega
  | succ fuel ih =>
    rw [SparseBitmap.scanUp]
    rcases Nat.lt_or_eq_of_le hi with hlt | rfl
    · rw [if_neg (twoPow_ne_zero hlt)]
      cases hbit : c.bits.getLsbD i with
      | true =>
        rw [if_pos ((and_twoPow_ne_zero _ hlt).2 hbit)]
        exact .inr ⟨i, hlt, hbit, by rw [c.above_eq hlt, if_pos hbit]; rfl, rfl, rfl⟩
      | false =>
        have hnext : ((c.startValue + i) % top + 1) % top = (c.startValue + (i + 1)) % top := by
          rw [Nat.mod_add_mod, Nat.add_assoc]
        have hbelow : c.below (i + 1) = c.below i := by
          rw [c.below_succ, if_neg (by simp [hbit]), append_nil]
        have habove : c.above i = c.above (i + 1) := by
          rw [c.above_eq hlt, if_neg (by simp [hbit]), nil_append]
        rw [if_neg (by rw [and_twoPow_ne_zero _ hlt, hbit]; simp), twoPow_shiftLeft_one, hnext,
          habove, ← hbelow]
        exact ih (by omega) (by omega)
    · rw [if_pos (twoPow_self i)]
      exact .inl ⟨c.above_of_le (Nat.le_refl i), rfl⟩

theorem scanDown_spec (htop : 0 < top) (c : Bucket n) (base : Nat) {fuel : Nat} (hm : m ≤ n)
    (hfuel : m < fuel) :
    (c.below m = [] ∧ (SparseBitmap.scanDown top c.bits fuel (maskBefore n m)
      ((base + m + (top - 1)) % top)).1 = false) ∨
    ∃ j < m, c.bits.getLsbD j ∧ c.below m = c.below j ++ [c.startValue + j] ∧
      c.above (j + 1) = c.above m ∧
      SparseBitmap.scanDown top c.bits fuel (maskBefore n m) ((base + m + (top - 1)) % top) =
        (true, BitVec.twoPow n j, (base + j) % top) := by
  induction fuel generalizing m with
  | zero => omega
  | succ fuel ih =>
    rw [SparseBitmap.scanDown]
    cases m with
    | zero =>
      exact .inl ⟨rfl, rfl⟩
    | succ m =>
      have hlt : m < n := hm
      have hmask : maskBefore n (m + 1) = BitVec.twoPow n m := rfl
      have hvalue : (base + (m + 1) + (top - 1)) % top = (base + m) % top := by
        rw [show base + (m + 1) + (top - 1) = base + m + top by omega, Nat.add_mod_right]
      rw [hmask, hvalue, if_neg (twoPow_ne_zero hlt)]
      cases hbit : c.bits.getLsbD m with
      | true =>
        rw [if_pos ((and_twoPow_ne_zero _ hlt).2 hbit)]
        exact .inr ⟨m, Nat.lt_succ_self m, hbit, by rw [c.below_succ, if_pos hbit], rfl, rfl⟩
      | false =>
        have hbelow : c.below (m + 1) = c.below m := by
          rw [c.below_succ, if_neg (by simp [hbit]), append_nil]
        have habove : c.above (m + 1) = c.above m := by
          rw [c.above_eq hlt, if_neg (by simp [hbit]), nil_append]
        rw [if_neg (by rw [and_twoPow_ne_zero _ hlt, hbit]; simp), twoPow_ushiftRight_one hlt,
          Nat.mod_add_mod, hbelow, habove]
        rcases @ih m (by omega) (by omega) with ⟨hnil, hfalse⟩ | ⟨j, hj, hrest⟩
        · exact .inl ⟨hnil, hfalse⟩
        · exact .inr ⟨j, by omega, hrest⟩

section

variable {items : List (Bucket n)} {value : Nat}

theorem Good.split_of_exists (h : Good items) (hthere : ∃ c ∈ items, c.startValue = value) :
    ∃ before c after, items = before ++ c :: after ∧ c.startValue = value ∧
      find Bucket.startValue items value = before.length := by
  rcases h.split value with hplace | ⟨before, after, rfl, hbefore, hafter, -⟩
  · exact hplace
  · obtain ⟨c, hc, hceq⟩ := hthere
    rcases mem_append.1 hc with hc | hc
    · exact absurd hceq (Nat.ne_of_lt (hbefore c hc))
    · exact absurd hceq (Nat.ne_of_gt (hafter c hc))

theorem Good.split_of_missing (h : Good items) (hmissing : ∀ c ∈ items, c.startValue ≠ value) :
    ∃ before after, items = before ++ after ∧ (∀ c ∈ before, c.startValue < value) ∧
      (∀ c ∈ after, value < c.startValue) ∧
      find Bucket.startValue items value = before.length := by
  rcases h.split value with ⟨before, c, after, rfl, hstart, -⟩ | hplace
  · exact absurd hstart (hmissing c (by simp))
  · exact hplace

end

end Firebird.Common
