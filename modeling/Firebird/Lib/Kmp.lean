import Mathlib.Data.List.Basic
import Mathlib.Data.List.Infix

/-!
# Searching with a table of falls

The search of Knuth, Morris and Pratt keeps the length of the longest front of the pattern that the
text ends with. A table says which front to try next when a letter does not match: the longest one
that ends the present front and goes on with another letter.
-/
namespace Firebird.Lib.Kmp

open List

def Greatest (P : Nat → Prop) : Option Nat → Prop
  | none => ∀ k, ¬P k
  | some j => P j ∧ ∀ k, P k → k ≤ j

variable {α : Type*} [DecidableEq α]

/-- The text ends with the first `k` letters of the pattern. -/
def Ends (x w : List α) (k : Nat) : Prop := x.take k <:+ w

/-- `while (j >= 0 && x[j] != c) j = next[j]`, where `none` is -1. -/
def fall (x : List α) (next : List (Option Nat)) (c : α) : Nat → Option Nat → Option Nat
  | _, none => none
  | 0, some j => some j
  | fuel + 1, some j => if x[j]? = some c then some j else fall x next c fuel (next.getD j none)

def Strong (x : List α) (next : List (Option Nat)) (q : Nat) : Prop :=
  Greatest (fun k => k < q ∧ Ends x (x.take q) k ∧ x[k]? ≠ x[q]?) (next.getD q none)

/-- A table for a pattern; its last entry is for the whole pattern. -/
structure Table (x : List α) (next : List (Option Nat)) : Prop where
  strong : ∀ q < x.length, Strong x next q
  whole : Greatest (fun k => k < x.length ∧ Ends x x k) (next.getD x.length none)

variable {x u w s b : List α} {next : List (Option Nat)} {c : α} {j k m n q fuel : Nat}

omit [DecidableEq α] in
theorem Ends.take (hk : Ends x w k) (hj : Ends x w j) (hle : k ≤ j) : Ends x (x.take j) k := by
  refine suffix_of_suffix_length_le hk hj ?_
  rw [length_take, length_take]
  omega

omit [DecidableEq α] in
theorem ends_zero : Ends x w 0 := by
  simp [Ends]

theorem fall_spec (hstrong : ∀ q < n, Strong x next q) {i : Option Nat}
    (hends : ∀ j ∈ i, j < n ∧ j < m ∧ Ends x w j)
    (hmax : ∀ k, k < m ∧ Ends x w k ∧ x[k]? = some c → ∃ j ∈ i, k ≤ j)
    (hfuel : ∀ j ∈ i, j < fuel) :
    Greatest (fun k => k < m ∧ Ends x w k ∧ x[k]? = some c) (fall x next c fuel i) := by
  induction fuel generalizing i with
  | zero =>
    cases i with
    | none =>
      intro k hk
      obtain ⟨j, hj, -⟩ := hmax k hk
      simp at hj
    | some j => exact absurd (hfuel j rfl) (by omega)
  | succ fuel ih =>
    cases i with
    | none =>
      intro k hk
      obtain ⟨j, hj, -⟩ := hmax k hk
      simp at hj
    | some j =>
      obtain ⟨hjn, hjm, hj⟩ := hends j rfl
      have hle : ∀ k, k < m ∧ Ends x w k ∧ x[k]? = some c → k ≤ j := by
        intro k hk
        obtain ⟨j', hj', hle⟩ := hmax k hk
        obtain rfl : j = j' := by simpa using hj'
        exact hle
      rw [fall]
      split_ifs with hc
      · exact ⟨⟨hjm, hj, hc⟩, hle⟩
      -- A front that goes on with the letter is among those of the entry, as this one does not.
      have hentry := hstrong j hjn
      have hcand : ∀ k, k < m ∧ Ends x w k ∧ x[k]? = some c →
          k < j ∧ Ends x (x.take j) k ∧ x[k]? ≠ x[j]? := by
        intro k hk
        have hkj : k ≠ j := by
          rintro rfl
          exact hc hk.2.2
        have hlt : k < j := by
          have := hle k hk
          omega
        refine ⟨hlt, hk.2.1.take hj (by omega), ?_⟩
        rw [hk.2.2]
        exact fun h => hc h.symm
      rw [Strong] at hentry
      cases hnext : next.getD j none with
      | none =>
        rw [hnext] at hentry
        refine ih (by simp) (fun k hk => absurd (hcand k hk) (hentry k)) (by simp)
      | some j' =>
        rw [hnext] at hentry
        obtain ⟨⟨hlt, hends', -⟩, hgreat⟩ := hentry
        refine ih ?_ ?_ ?_
        · intro i hi
          obtain rfl : j' = i := by simpa using hi
          exact ⟨by omega, by omega, IsSuffix.trans hends' hj⟩
        · intro k hk
          exact ⟨j', rfl, hgreat k (hcand k hk)⟩
        · intro i hi
          obtain rfl : j' = i := by simpa using hi
          have := hfuel j rfl
          omega

omit [DecidableEq α] in
theorem ends_append_singleton (hk : k ≤ x.length) :
    Ends x (w ++ [c]) k ↔ k = 0 ∨ ∃ j, k = j + 1 ∧ Ends x w j ∧ x[j]? = some c := by
  cases k with
  | zero => simp [ends_zero]
  | succ j =>
    have hlt : j < x.length := hk
    have htake : x.take (j + 1) = x.take j ++ [x[j]] := by
      rw [take_append_getElem]
    have hsuffix : x.take j ++ [x[j]] <:+ w ++ [c] ↔ x.take j <:+ w ∧ x[j] = c := by
      rw [← reverse_prefix, reverse_append, reverse_append, reverse_singleton, reverse_singleton,
        singleton_append, singleton_append, cons_prefix_cons, reverse_prefix, and_comm]
    rw [Ends, htake, hsuffix]
    constructor
    · rintro ⟨hends, rfl⟩
      exact .inr ⟨j, rfl, hends, by simp [hlt]⟩
    · rintro (h | ⟨j', h, hends, hc⟩)
      · omega
      · obtain rfl : j = j' := by omega
        rw [getElem?_eq_getElem hlt] at hc
        exact ⟨hends, Option.some.inj hc⟩

def advance (i : Option Nat) : Nat := (i.map (· + 1)).getD 0

omit [DecidableEq α] in
theorem advance_spec (hm : m ≤ x.length) {i : Option Nat}
    (h : Greatest (fun k => k < m ∧ Ends x w k ∧ x[k]? = some c) i) :
    Greatest (fun k => k < m + 1 ∧ Ends x (w ++ [c]) k) (some (advance i)) := by
  cases i with
  | none =>
    refine ⟨⟨Nat.succ_pos _, ends_zero⟩, fun k ⟨hlt, hk⟩ => ?_⟩
    rcases (ends_append_singleton (by omega)).1 hk with rfl | ⟨j, rfl, hends, hc⟩
    · exact Nat.le_refl _
    · exact absurd ⟨by omega, hends, hc⟩ (h j)
  | some i =>
    obtain ⟨⟨hlt, hends, hc⟩, hgreat⟩ := h
    refine ⟨⟨by simp [advance]; omega, ?_⟩, fun k ⟨hlt', hk⟩ => ?_⟩
    · exact (ends_append_singleton (by simp [advance]; omega)).2
        (.inr ⟨i, by simp [advance], hends, hc⟩)
    · rcases (ends_append_singleton (by omega)).1 hk with rfl | ⟨j, rfl, hends', hc'⟩
      · exact Nat.zero_le _
      · have := hgreat j ⟨by omega, hends', hc'⟩
        simp [advance]
        omega

theorem strong_of_longest (hk : Greatest (fun k => k < q ∧ Ends x (x.take q) k) (some k))
    (hstrong : Strong x next k)
    (hq : next.getD q none = if x[q]? = x[k]? then next.getD k none else some k) :
    Strong x next q := by
  obtain ⟨⟨hlt, hends⟩, hgreat⟩ := hk
  rw [Strong, hq]
  split_ifs with heq
  · -- The longest end goes on with the same letter, so that its own ends are left.
    have hcand : ∀ i, (i < q ∧ Ends x (x.take q) i ∧ x[i]? ≠ x[q]?) ↔
        (i < k ∧ Ends x (x.take k) i ∧ x[i]? ≠ x[k]?) := by
      intro i
      rw [heq]
      constructor
      · rintro ⟨hi, hie, hne⟩
        have hle := hgreat i ⟨hi, hie⟩
        have hik : i ≠ k := by
          rintro rfl
          exact hne rfl
        exact ⟨by omega, hie.take hends hle, hne⟩
      · rintro ⟨hi, hie, hne⟩
        exact ⟨by omega, IsSuffix.trans hie hends, hne⟩
    simp only [hcand]
    exact hstrong
  · refine ⟨⟨hlt, hends, fun h => heq h.symm⟩, fun i hi => hgreat i ⟨hi.1, hi.2.1⟩⟩

/-- The pattern ends in the text behind `u`, in front of the rest `b`. -/
def Occ (x u s b : List α) : Prop := ∃ t, t ≠ [] ∧ s = t ++ b ∧ x <:+ u ++ t

omit [DecidableEq α] in
theorem occ_cons : Occ x u (c :: s) b ↔ b = s ∧ x <:+ u ++ [c] ∨ Occ x (u ++ [c]) s b := by
  constructor
  · rintro ⟨t, hne, heq, hsuffix⟩
    cases t with
    | nil => exact absurd rfl hne
    | cons d t =>
      obtain ⟨rfl, rfl⟩ := cons_eq_cons.1 heq
      by_cases ht : t = []
      · subst ht
        exact .inl ⟨rfl, hsuffix⟩
      · exact .inr ⟨t, ht, rfl, by simpa using hsuffix⟩
  · rintro (⟨rfl, hsuffix⟩ | ⟨t, hne, rfl, hsuffix⟩)
    · exact ⟨[c], by simp, rfl, hsuffix⟩
    · exact ⟨c :: t, by simp, rfl, by simpa using hsuffix⟩

omit [DecidableEq α] in
theorem occ_take_iff (hk : Greatest (fun k => k < x.length ∧ Ends x u k) (some k)) :
    Occ x (x.take k) s b ↔ Occ x u s b := by
  obtain ⟨⟨hlt, hends⟩, hgreat⟩ := hk
  constructor
  · rintro ⟨t, hne, heq, hsuffix⟩
    refine ⟨t, hne, heq, hsuffix.trans ?_⟩
    obtain ⟨r, hr⟩ := hends
    exact ⟨r, by rw [← hr, append_assoc]⟩
  · rintro ⟨t, hne, heq, hsuffix⟩
    refine ⟨t, hne, heq, ?_⟩
    have hpos : 0 < t.length := length_pos_iff.2 hne
    rcases Nat.le_total x.length t.length with hle | hle
    · -- The pattern lies in the new text.
      have hin : x <:+ t := suffix_of_suffix_length_le hsuffix (suffix_append _ _) hle
      exact hin.trans (suffix_append _ _)
    · -- It begins with a front that the old text ends with.
      have htx : t <:+ x := suffix_of_suffix_length_le (suffix_append _ _) hsuffix hle
      obtain ⟨p, rfl⟩ := htx
      have hpu : p <:+ u := by
        obtain ⟨r, hr⟩ := hsuffix
        rw [← append_assoc] at hr
        exact ⟨r, append_cancel_right hr⟩
      have hp : Ends (p ++ t) u p.length := by simpa [Ends] using hpu
      have hplt : p.length < (p ++ t).length := by
        rw [length_append]
        omega
      have htake := hp.take hends (hgreat _ ⟨hplt, hp⟩)
      obtain ⟨r, hr⟩ := htake
      rw [take_left] at hr
      exact ⟨r, by rw [← append_assoc, hr]⟩

end Firebird.Lib.Kmp
