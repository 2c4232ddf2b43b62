import Mathlib.Data.List.DropRight
import Mathlib.Order.Compare

/-!
# Comparing padded words

A word can be compared with another as if the shorter one went on with a pad, or letter by letter
with the shorter word in front. The two comparisons agree on words that have lost their pads at the
end, unless one of them goes on behind the other with a letter below the pad.
-/
namespace Firebird.Lib.Padded

open List

variable {α : Type*} [Ord α]

def compareRest (pad : α) : List α → Ordering
  | [] => .eq
  | b :: q => (compare pad b).then (compareRest pad q)

def padCompare (pad : α) : List α → List α → Ordering
  | [], q => compareRest pad q
  | a :: p, [] => (compare a pad).then (padCompare pad p [])
  | a :: p, b :: q => (compare a b).then (padCompare pad p q)

def startsBelow (pad : α) : List α → Bool
  | [] => false
  | c :: q =>
    match compare c pad with
    | .lt => true
    | .eq => startsBelow pad q
    | .gt => false

def goesBelow (pad : α) : List α → List α → Bool
  | [], q => startsBelow pad q
  | _ :: _, [] => false
  | a :: p, b :: q => compare a b == .eq && goesBelow pad p q

def Trimmed (pad : α) (l : List α) : Prop := ∀ b ∈ l.getLast?, compare b pad ≠ .eq

/-- The pads at the end are dropped, and one letter is kept. -/
def chop [BEq α] (pad : α) : List α → List α
  | [] => []
  | a :: l => a :: l.rdropWhile (· == pad)

theorem then_eq_then_iff {o x y : Ordering} : o.then x = o.then y ↔ (o = .eq → x = y) := by
  cases o <;> simp

section

variable {pad a : α} {p : List α}

theorem padCompare_eq_compareLex {q : List α} (h : p.length = q.length) :
    padCompare pad p q = List.compareLex compare p q := by
  induction p generalizing q with
  | nil =>
    obtain rfl := eq_nil_of_length_eq_zero h.symm
    rw [padCompare, compareRest, List.compareLex_nil_nil]
  | cons a p ih =>
    cases q with
    | nil => simp at h
    | cons b q => rw [padCompare, List.compareLex_cons_cons, ih (by simpa using h)]

theorem Trimmed.tail (h : Trimmed pad (a :: p)) : Trimmed pad p := by
  cases p with
  | nil => simp [Trimmed]
  | cons b p => rwa [Trimmed, getLast?_cons_cons] at h

theorem goesBelow_nil_right : goesBelow pad p [] = false := by
  cases p <;> rfl

end

section

variable [Std.OrientedOrd α] {pad : α} {p q : List α}

theorem padCompare_nil_right (p : List α) : padCompare pad p [] = (compareRest pad p).swap := by
  induction p with
  | nil => rfl
  | cons a p ih =>
    rw [padCompare, compareRest, ih, Ordering.swap_then, Std.OrientedOrd.eq_swap (a := a)]

theorem padCompare_swap (p q : List α) : padCompare pad q p = (padCompare pad p q).swap := by
  induction p generalizing q with
  | nil => exact padCompare_nil_right q
  | cons a p ih =>
    cases q with
    | nil => rw [padCompare_nil_right, Ordering.swap_swap, padCompare]
    | cons b q =>
      rw [padCompare, padCompare, ih, Ordering.swap_then, Std.OrientedOrd.eq_swap (a := b)]

theorem padCompare_replicate (k : Nat) (q : List α) :
    padCompare pad (replicate k pad) q = compareRest pad q := by
  induction k generalizing q with
  | zero => rfl
  | succ k ih =>
    cases q with
    | nil =>
      rw [replicate_succ, padCompare, ih, Std.ReflOrd.compare_self]
      rfl
    | cons b q => rw [replicate_succ, padCompare, compareRest, ih]

theorem padCompare_append_left (p q : List α) (k : Nat) :
    padCompare pad (p ++ replicate k pad) q = padCompare pad p q := by
  induction p generalizing q with
  | nil => exact padCompare_replicate k q
  | cons a p ih =>
    cases q with
    | nil => rw [cons_append, padCompare, padCompare, ih]
    | cons b q => rw [cons_append, padCompare, padCompare, ih]

theorem padCompare_append_right (p q : List α) (k : Nat) :
    padCompare pad p (q ++ replicate k pad) = padCompare pad p q := by
  rw [padCompare_swap, padCompare_append_left, ← padCompare_swap]

theorem compareRest_eq (h : Trimmed pad q) (hne : q ≠ []) :
    compareRest pad q = if startsBelow pad q then .gt else .lt := by
  induction q with
  | nil => exact absurd rfl hne
  | cons b q ih =>
    rw [compareRest, startsBelow, Std.OrientedOrd.eq_swap (a := pad)]
    cases hb : compare b pad with
    | lt => rfl
    | gt => rfl
    | eq =>
      have hq : q ≠ [] := by
        rintro rfl
        exact h b (by simp) hb
      exact ih h.tail hq

theorem padCompare_eq_compareLex_iff (hp : Trimmed pad p) (hq : Trimmed pad q) :
    padCompare pad p q = List.compareLex compare p q ↔
      goesBelow pad p q = false ∧ goesBelow pad q p = false := by
  induction p generalizing q with
  | nil =>
    cases q with
    | nil => simp [padCompare, compareRest, goesBelow, startsBelow, List.compareLex_nil_nil]
    | cons b q =>
      rw [padCompare, compareRest_eq hq (by simp), goesBelow_nil_right, goesBelow,
        List.compareLex_nil_cons]
      cases startsBelow pad (b :: q) <;> simp
  | cons a p ih =>
    cases q with
    | nil =>
      rw [padCompare_nil_right, compareRest_eq hp (by simp), goesBelow_nil_right, goesBelow,
        List.compareLex_cons_nil]
      cases startsBelow pad (a :: p) <;> simp
    | cons b q =>
      rw [padCompare, List.compareLex_cons_cons, then_eq_then_iff, ih hp.tail hq.tail, goesBelow,
        goesBelow, Std.OrientedOrd.eq_swap (a := b)]
      cases compare a b <;> simp

end

section

variable [Std.OrientedOrd α] [BEq α] [LawfulBEq α] {pad a b : α} {p q : List α}

omit [BEq α] [LawfulBEq α] in
theorem padCompare_append_replicate (n : Nat) (p q : List α) :
    padCompare pad (p ++ replicate n pad) q = padCompare pad p q := by
  induction p generalizing q with
  | nil =>
    induction n generalizing q with
    | zero => rfl
    | succ n ih =>
      rw [nil_append, replicate_succ]
      cases q with
      | nil =>
        change (compare pad pad).then (padCompare pad (replicate n pad) []) = _
        rw [Std.ReflOrd.compare_self]
        exact ih []
      | cons b q =>
        rw [padCompare, padCompare, compareRest]
        exact congrArg _ (ih q)
  | cons a p ih =>
    cases q with
    | nil => rw [cons_append, padCompare, padCompare, ih]
    | cons b q => rw [cons_append, padCompare, padCompare, ih]

omit [Ord α] [Std.OrientedOrd α] in
theorem chop_append_replicate (p : List α) : ∃ n, chop pad p ++ replicate n pad = p := by
  cases p with
  | nil => exact ⟨0, rfl⟩
  | cons a p =>
    refine ⟨(p.rtakeWhile (· == pad)).length, ?_⟩
    have hall : p.rtakeWhile (· == pad) = replicate (p.rtakeWhile (· == pad)).length pad := by
      refine eq_replicate_of_mem fun b hb => ?_
      simpa using mem_rtakeWhile_imp hb
    rw [chop, ← hall, cons_append, rdropWhile_append_rtakeWhile]

theorem padCompare_chop (p q : List α) :
    padCompare pad (chop pad p) (chop pad q) = padCompare pad p q := by
  obtain ⟨m, hm⟩ := @chop_append_replicate _ _ _ pad p
  obtain ⟨n, hn⟩ := @chop_append_replicate _ _ _ pad q
  calc
    _ = padCompare pad p (chop pad q) := by rw [← padCompare_append_replicate m, hm]
    _ = (padCompare pad (chop pad q) p).swap := padCompare_swap _ _
    _ = (padCompare pad q p).swap := by rw [← padCompare_append_replicate n, hn]
    _ = padCompare pad p q := (padCompare_swap _ _).symm

omit [Std.OrientedOrd α] in
theorem trimmed_rdropWhile [Std.LawfulEqOrd α] (p : List α) :
    Trimmed pad (p.rdropWhile (· == pad)) := by
  intro b hb heq
  obtain ⟨hne, rfl⟩ := mem_getLast?_eq_getLast hb
  have hlast := rdropWhile_last_not (· == pad) p hne
  exact hlast (by simpa using Std.LawfulEqOrd.eq_of_compare heq)

theorem padCompare_eq_compareLex_chop_iff [Std.LawfulEqOrd α] (p q : List α) (hp : p ≠ [])
    (hq : q ≠ []) :
    padCompare pad p q = List.compareLex compare (chop pad p) (chop pad q) ↔
      goesBelow pad (chop pad p) (chop pad q) = false ∧
        goesBelow pad (chop pad q) (chop pad p) = false := by
  obtain ⟨a, p, rfl⟩ := exists_cons_of_ne_nil hp
  obtain ⟨b, q, rfl⟩ := exists_cons_of_ne_nil hq
  rw [← padCompare_chop]
  simp only [chop]
  rw [padCompare, List.compareLex_cons_cons, then_eq_then_iff,
    padCompare_eq_compareLex_iff (trimmed_rdropWhile p) (trimmed_rdropWhile q), goesBelow,
      goesBelow,
    Std.OrientedOrd.eq_swap (a := b)]
  cases compare a b <;> simp

end

end Firebird.Lib.Padded
