import Mathlib.Data.List.Basic
import Mathlib.Order.Compare
import Mathlib.Tactic.Ring

/-!
# Words of bytes

Bytes as numbers with the lowest byte first, the numbers with a sign that they stand for, and the
comparison of byte strings through the words of four bytes they consist of.
-/
namespace Firebird.Lib.Words

open List

def le : List UInt8 → Nat
  | [] => 0
  | b :: p => b.toNat + 256 * le p

def longs : List UInt8 → List Nat
  | a :: b :: c :: d :: p => le [a, b, c, d] :: longs p
  | _ => []

def complement (p : List UInt8) : List UInt8 := p.map (~~~ ·)

def reverseLongs : List UInt8 → List UInt8
  | a :: b :: c :: d :: p => d :: c :: b :: a :: reverseLongs p
  | p => p

def signed (p : List UInt8) : Int :=
  if 2 * le p < 256 ^ p.length then le p else (le p : Int) - 256 ^ p.length

def signMagnitude (p : List UInt8) : Int :=
  if 2 * le p < 256 ^ p.length then le p else (256 ^ p.length / 2 : Nat) - 1 - (le p : Int)

def compareLongs (p q : List UInt8) : Ordering := List.compareLex compare (longs p) (longs q)

variable {p q p' q' : List UInt8} {a b : UInt8}

@[simp]
theorem le_nil : le [] = 0 := rfl

@[simp]
theorem le_cons : le (a :: p) = a.toNat + 256 * le p := rfl

theorem le_lt (p : List UInt8) : le p < 256 ^ p.length := by
  induction p with
  | nil => simp
  | cons a p ih =>
    have ha := a.toNat_lt
    rw [le_cons, length_cons, Nat.pow_succ]
    omega

theorem le_append (p q : List UInt8) : le (p ++ q) = le p + 256 ^ p.length * le q := by
  induction p with
  | nil => simp
  | cons a p ih =>
    rw [cons_append, le_cons, le_cons, ih, length_cons, Nat.pow_succ]
    ring

@[simp]
theorem length_complement (p : List UInt8) : (complement p).length = p.length :=
  length_map _

theorem toNat_complement (a : UInt8) : (~~~ a).toNat = 255 - a.toNat := by
  simp

theorem le_complement (p : List UInt8) : le (complement p) = 256 ^ p.length - 1 - le p := by
  induction p with
  | nil => rfl
  | cons a p ih =>
    have ha := a.toNat_lt
    have hp := le_lt p
    rw [complement, map_cons, le_cons, toNat_complement, le_cons, length_cons, Nat.pow_succ]
    rw [complement] at ih
    rw [ih]
    omega

@[simp]
theorem complement_complement (p : List UInt8) : complement (complement p) = p := by
  induction p with
  | nil => rfl
  | cons a p ih =>
    rw [complement, complement, map_cons, map_cons, UInt8.not_not]
    rw [complement, complement] at ih
    rw [ih]

theorem compare_digits {B u v x y : Nat} (hu : u < B) (hv : v < B) :
    compare (u + B * x) (v + B * y) = (compare x y).then (compare u v) := by
  rcases Nat.lt_trichotomy x y with hlt | rfl | hlt
  · have hmul : B * x + B ≤ B * y := by
      calc B * x + B = B * (x + 1) := by ring
        _ ≤ B * y := Nat.mul_le_mul_left B hlt
    rw [compare_lt_iff_lt.2 hlt, compare_lt_iff_lt.2 (by omega)]
    rfl
  · rw [compare_eq_iff_eq.2 (rfl : x = x), Ordering.then]
    rcases Nat.lt_trichotomy u v with h | rfl | h
    · rw [compare_lt_iff_lt.2 h, compare_lt_iff_lt.2 (by omega)]
    · simp
    · rw [compare_gt_iff_gt.2 h, compare_gt_iff_gt.2 (by omega)]
  · have hmul : B * y + B ≤ B * x := by
      calc B * y + B = B * (y + 1) := by ring
        _ ≤ B * x := Nat.mul_le_mul_left B hlt
    rw [compare_gt_iff_gt.2 hlt, compare_gt_iff_gt.2 (by omega)]
    rfl

theorem compare_toNat (a b : UInt8) : compare a.toNat b.toNat = compare a b := by
  have hlt : a < b ↔ a.toNat < b.toNat := UInt8.lt_iff_toNat_lt
  have heq : a = b ↔ a.toNat = b.toNat := UInt8.toNat_inj.symm
  change compareOfLessAndEq a.toNat b.toNat = compareOfLessAndEq a b
  simp [compareOfLessAndEq, hlt, heq]

theorem compare_sub {B u v : Nat} (hu : u < B) (hv : v < B) :
    compare (B - 1 - u) (B - 1 - v) = (compare u v).swap := by
  rcases Nat.lt_trichotomy u v with h | rfl | h
  · rw [compare_lt_iff_lt.2 h, compare_gt_iff_gt.2 (by omega)]
    rfl
  · simp
  · rw [compare_gt_iff_gt.2 h, compare_lt_iff_lt.2 (by omega)]
    rfl

theorem compareLex_append {α : Type*} {cmp : α → α → Ordering} {x y x' y' : List α}
    (h : x.length = y.length) :
    List.compareLex cmp (x ++ x') (y ++ y') =
      (List.compareLex cmp x y).then (List.compareLex cmp x' y') := by
  induction x generalizing y with
  | nil =>
    obtain rfl := eq_nil_of_length_eq_zero h.symm
    rfl
  | cons a x ih =>
    cases y with
    | nil => simp at h
    | cons b y =>
      rw [cons_append, cons_append, List.compareLex_cons_cons, List.compareLex_cons_cons,
        ih (by simpa using h), Ordering.then_assoc]

theorem compare_le_reverse (h : p.length = q.length) :
    compare (le p.reverse) (le q.reverse) = List.compareLex compare p q := by
  induction p generalizing q with
  | nil =>
    obtain rfl := eq_nil_of_length_eq_zero h.symm
    rfl
  | cons a p ih =>
    cases q with
    | nil => simp at h
    | cons b q =>
      have hlen : p.length = q.length := by simpa using h
      have hp := le_lt p.reverse
      have hq := le_lt q.reverse
      rw [length_reverse] at hp hq
      rw [List.compareLex_cons_cons, reverse_cons, reverse_cons, le_append, le_append,
        length_reverse, length_reverse, ← hlen, compare_digits hp (hlen ▸ hq),
        ih hlen, le_cons, le_cons, le_nil, ← compare_toNat]
      rfl

@[elab_as_elim]
theorem four_induction {motive : List UInt8 → List UInt8 → Prop} (nil : motive [] [])
    (cons : ∀ a b c d a' b' c' d' p q, p.length = q.length → motive p q →
      motive (a :: b :: c :: d :: p) (a' :: b' :: c' :: d' :: q))
    (p q : List UInt8) (hfour : 4 ∣ p.length) (h : p.length = q.length) : motive p q := by
  match p, q with
  | [], [] => exact nil
  | a :: b :: c :: d :: p, a' :: b' :: c' :: d' :: q =>
    have hlen : p.length = q.length := by simpa using h
    have hdvd : 4 ∣ p.length := by
      obtain ⟨k, hk⟩ := hfour
      simp only [length_cons] at hk
      exact ⟨k - 1, by omega⟩
    exact cons a b c d a' b' c' d' p q hlen (four_induction nil cons p q hdvd hlen)
  | [], b :: q => simp at h
  | [a], q =>
    simp only [length_singleton] at hfour
    omega
  | [a, b], q =>
    simp only [length_cons, length_nil] at hfour
    omega
  | [a, b, c], q =>
    simp only [length_cons, length_nil] at hfour
    omega
  | a :: b :: c :: d :: p, [] => simp at h
  | a :: b :: c :: d :: p, [a'] => simp at h
  | a :: b :: c :: d :: p, [a', b'] => simp at h
  | a :: b :: c :: d :: p, [a', b', c'] => simp at h

theorem longs_four {c d : UInt8} : longs (a :: b :: c :: d :: p) = le [a, b, c, d] :: longs p := rfl

theorem compareLongs_append (hfour : 4 ∣ p.length) (h : p.length = q.length) :
    compareLongs (p ++ p') (q ++ q') = (compareLongs p q).then (compareLongs p' q') := by
  refine four_induction ?_ ?_ p q hfour h
  · rfl
  · intro a b c d a' b' c' d' p q hlen ih
    simp only [compareLongs, cons_append, longs_four, List.compareLex_cons_cons] at ih ⊢
    rw [ih, Ordering.then_assoc]

theorem compareLongs_complement (hfour : 4 ∣ p.length) (h : p.length = q.length) :
    compareLongs (complement p) (complement q) = (compareLongs p q).swap := by
  refine four_induction ?_ ?_ p q hfour h
  · rfl
  · intro a b c d a' b' c' d' p q hlen ih
    have hword : le [~~~ a, ~~~ b, ~~~ c, ~~~ d] = 256 ^ 4 - 1 - le [a, b, c, d] :=
      le_complement [a, b, c, d]
    have hword' : le [~~~ a', ~~~ b', ~~~ c', ~~~ d'] = 256 ^ 4 - 1 - le [a', b', c', d'] :=
      le_complement [a', b', c', d']
    have hlt : le [a, b, c, d] < 256 ^ 4 := le_lt [a, b, c, d]
    have hlt' : le [a', b', c', d'] < 256 ^ 4 := le_lt [a', b', c', d']
    simp only [compareLongs, complement, map_cons, longs_four, List.compareLex_cons_cons]
      at ih ⊢
    rw [ih, hword, hword', compare_sub hlt hlt', Ordering.swap_then]

theorem length_reverseLongs (p : List UInt8) : (reverseLongs p).length = p.length := by
  fun_induction reverseLongs p with
  | case1 a b c d p ih => simp [ih]
  | case2 p => rfl

@[simp]
theorem reverseLongs_reverseLongs (p : List UInt8) : reverseLongs (reverseLongs p) = p := by
  fun_induction reverseLongs p with
  | case1 a b c d p ih => rw [reverseLongs, ih]
  | case2 p h =>
    rw [reverseLongs.eq_2]
    exact h

theorem compareLongs_reverseLongs (hfour : 4 ∣ p.length) (h : p.length = q.length) :
    compareLongs (reverseLongs p) (reverseLongs q) = List.compareLex compare p q := by
  refine four_induction ?_ ?_ p q hfour h
  · simp [compareLongs, List.compareLex_nil_nil]
  · intro a b c d a' b' c' d' p q hlen ih
    have hword : compare (le [d, c, b, a]) (le [d', c', b', a']) =
        List.compareLex compare [a, b, c, d] [a', b', c', d'] :=
      @compare_le_reverse [a, b, c, d] [a', b', c', d'] rfl
    rw [show a :: b :: c :: d :: p = [a, b, c, d] ++ p by rfl, show a' :: b' :: c' :: d' :: q = [a',
      b', c', d'] ++ q by rfl, compareLex_append (by rfl), ← ih, ← hword]
    simp only [compareLongs, cons_append, nil_append, reverseLongs, longs_four,
      List.compareLex_cons_cons]

theorem compareLongs_four (hp : p.length = 4) (hq : q.length = 4) :
    compareLongs p q = compare (le p) (le q) := by
  obtain ⟨a, b, c, d, rfl⟩ : ∃ a b c d, p = [a, b, c, d] := by
    match p, hp with
    | [a, b, c, d], _ => exact ⟨a, b, c, d, rfl⟩
  obtain ⟨a', b', c', d', rfl⟩ : ∃ a b c d, q = [a, b, c, d] := by
    match q, hq with
    | [a, b, c, d], _ => exact ⟨a, b, c, d, rfl⟩
  simp only [compareLongs, longs, List.compareLex_cons_cons]
  cases compare (le [a, b, c, d]) (le [a', b', c', d']) <;> rfl

theorem compareLongs_eight (hp : p.length = 8) (hq : q.length = 8) :
    compareLongs (p.drop 4 ++ p.take 4) (q.drop 4 ++ q.take 4) = compare (le p) (le q) := by
  have hlen : ∀ r : List UInt8, r.length = 8 → (r.take 4).length = 4 ∧ (r.drop 4).length = 4 := by
    intro r hr
    simp [hr]
  obtain ⟨htp, hdp⟩ := hlen p hp
  obtain ⟨htq, hdq⟩ := hlen q hq
  have hup := le_lt (p.take 4)
  have huq := le_lt (q.take 4)
  rw [htp] at hup
  rw [htq] at huq
  rw [compareLongs_append (by omega) (by omega), compareLongs_four hdp hdq,
    compareLongs_four htp htq, ← compare_digits hup huq]
  have hsplit : ∀ r : List UInt8, r.length = 8 → le r = le (r.take 4) + 256 ^ 4 * le
    (r.drop 4) := by
    intro r hr
    conv_lhs => rw [← take_append_drop 4 r, le_append]
    rw [(hlen r hr).1]
  rw [hsplit p hp, hsplit q hq]

theorem toNat_flip (a : UInt8) :
    (a ^^^ 0x80).toNat = if a.toNat < 128 then a.toNat + 128 else a.toNat - 128 := by
  have h : ∀ n : Fin 256, (UInt8.ofFin n ^^^ 0x80).toNat =
      if n.val < 128 then n.val + 128 else n.val - 128 := by
    decide +kernel
  exact h a.toFin

theorem two_mul_le_lt_iff (p : List UInt8) (a : UInt8) :
    2 * le (p ++ [a]) < 256 ^ (p ++ [a]).length ↔ a.toNat < 128 := by
  have hp := le_lt p
  rw [le_append, le_cons, le_nil, length_append, length_singleton, Nat.pow_succ]
  generalize 256 ^ p.length = B at hp
  constructor
  · intro h
    by_contra hge
    have hmul : B * 128 ≤ B * (a.toNat + 256 * 0) := Nat.mul_le_mul_left B (by omega)
    omega
  · intro h
    have hmul : B * (a.toNat + 256 * 0) ≤ B * 127 := Nat.mul_le_mul_left B (by omega)
    omega

theorem le_flip (p : List UInt8) (a : UInt8) :
    (le (p ++ [a ^^^ 0x80]) : Int) = signed (p ++ [a]) + 128 * 256 ^ p.length := by
  have htop := two_mul_le_lt_iff p a
  rw [signed]
  simp only [htop]
  rw [le_append, le_append, le_cons, le_cons, le_nil, toNat_flip, length_append,
    length_singleton, pow_succ]
  split_ifs with h
  · push_cast
    ring
  · push_cast [Nat.cast_sub (Nat.le_of_not_lt h)]
    ring

theorem le_magnitude (p : List UInt8) (a : UInt8) :
    (le (if a.toNat < 128 then p ++ [a ^^^ 0x80] else complement (p ++ [a])) : Int) =
      signMagnitude (p ++ [a]) + 128 * 256 ^ p.length := by
  have htop := two_mul_le_lt_iff p a
  have hlt := le_lt (p ++ [a])
  have hlen : (p ++ [a]).length = p.length + 1 := by simp
  rw [signMagnitude]
  simp only [htop]
  split_ifs with h
  · rw [le_append, le_append, le_cons, le_cons, le_nil, toNat_flip, if_pos h]
    push_cast
    ring
  · have hpow : ((256 ^ p.length : Nat) : Int) = 256 ^ p.length := by simp
    rw [hlen, Nat.pow_succ] at hlt
    rw [le_complement, hlen, Nat.pow_succ, ← hpow]
    omega

end Firebird.Lib.Words
