import Firebird.Common.TreePages

/-!
# Searching in the pages of a tree

The search on a page finds the place of a key among the children or the items of the page, provided
that their keys ascend.
-/
namespace Firebird.Common.Pages

open List

variable {α κ : Type} [LinearOrder κ] {p : Template α κ} {β : Type} {generate : β → Option α}
variable {data : List β} {k : κ}

theorem findLoop_spec {fuel low high : Nat}
    (hmono : ∀ i j, i ≤ j → j < data.length → greaterThan p k (data[j]?.bind generate) = true →
      greaterThan p k (data[i]?.bind generate) = true)
    (hle : low ≤ high) (hlen : high ≤ data.length) (hfuel : high - low < fuel)
    (hlow : ∀ i < low, greaterThan p k (data[i]?.bind generate) = true)
    (hhigh : ∀ i, high ≤ i → i < data.length → greaterThan p k (data[i]?.bind generate) = false) :
    ∃ m ≤ data.length, findLoop p generate data k fuel low high = (m, m) ∧
      (∀ i < m, greaterThan p k (data[i]?.bind generate) = true) ∧
      ∀ i, m ≤ i → i < data.length → greaterThan p k (data[i]?.bind generate) = false := by
  induction fuel generalizing low high with
  | zero => omega
  | succ fuel ih =>
    simp only [findLoop]
    split_ifs with hlt hgt
    · refine ih (by omega) hlen (by omega) ?_ hhigh
      intro i hi
      exact hmono i _ (by omega) (by omega) hgt
    · refine ih (by omega) (by omega) (by omega) hlow ?_
      intro i hi hi'
      by_contra hne
      rw [Bool.not_eq_false] at hne
      exact hgt (hmono _ i hi hi' hne)
    · obtain rfl : low = high := by omega
      exact ⟨low, hlen, rfl, hlow, hhigh⟩

def Ascending (p : Template α κ) (generate : β → Option α) (data : List β) : Prop :=
  (∀ e ∈ data, ∃ x, generate e = some x) ∧
    data.Pairwise fun e f => ∀ x ∈ generate e, ∀ y ∈ generate f, p.key x < p.key y

theorem greaterThan_eq_true {e : β} {x : α} (h : generate e = some x) :
    greaterThan p k (generate e) = true ↔ p.key x < k := by
  simp [greaterThan, h]

theorem find_spec (h : Ascending p generate data) (k : κ) :
    ∃ before after, data = before ++ after ∧
      (∀ e ∈ before, ∀ x ∈ generate e, p.key x < k) ∧
      (∀ e ∈ after, ∀ x ∈ generate e, k ≤ p.key x) ∧
      (find p generate data k).2 = before.length ∧
      ((find p generate data k).1 = true ↔ ∃ e ∈ after.head?, ∃ x ∈ generate e, p.key x = k) := by
  have hget : ∀ i (hi : i < data.length), data[i]?.bind generate = generate data[i] := by
    intro i hi
    rw [getElem?_eq_getElem hi, Option.bind_some]
  have hmono : ∀ i j, i ≤ j → j < data.length →
      greaterThan p k (data[j]?.bind generate) = true →
      greaterThan p k (data[i]?.bind generate) = true := by
    intro i j hij hj hgt
    have hi : i < data.length := by omega
    rw [hget j hj] at hgt
    rw [hget i hi]
    obtain ⟨x, hx⟩ := h.1 _ (getElem_mem hi)
    obtain ⟨y, hy⟩ := h.1 _ (getElem_mem hj)
    rw [greaterThan_eq_true hy] at hgt
    rw [greaterThan_eq_true hx]
    rcases Nat.eq_or_lt_of_le hij with rfl | hlt
    · rw [hx] at hy
      cases hy
      exact hgt
    · exact lt_trans (pairwise_iff_getElem.1 h.2 i j hi hj hlt x hx y hy) hgt
  obtain ⟨m, hm, hloop, hlow, hhigh⟩ := findLoop_spec hmono (Nat.zero_le _) (Nat.le_refl _)
    (show data.length - 0 < data.length + 1 by omega) (by simp) (by omega)
  have hbefore : ∀ e ∈ data.take m, ∀ x ∈ generate e, p.key x < k := by
    intro e he x hx
    obtain ⟨i, hi, rfl⟩ := getElem_of_mem he
    rw [length_take] at hi
    rw [getElem_take] at hx
    have hgt := hlow i (by omega)
    rwa [hget i (by omega), greaterThan_eq_true hx] at hgt
  have hafter : ∀ e ∈ data.drop m, ∀ x ∈ generate e, k ≤ p.key x := by
    intro e he x hx
    obtain ⟨i, hi, rfl⟩ := getElem_of_mem he
    rw [length_drop] at hi
    rw [getElem_drop] at hx
    have hgt := hhigh (m + i) (by omega) (by omega)
    rw [hget (m + i) (by omega)] at hgt
    by_contra hlt
    rw [not_le] at hlt
    rw [(greaterThan_eq_true hx).2 hlt] at hgt
    cases hgt
  refine ⟨data.take m, data.drop m, (take_append_drop m data).symm, hbefore, hafter, ?_, ?_⟩
  · rw [find, hloop, length_take]
    exact (Nat.min_eq_left hm).symm
  · rw [find, hloop]
    simp only [decide_eq_true_eq]
    rw [head?_drop]
    rcases Nat.eq_or_lt_of_le hm with rfl | hlt
    · simp
    · obtain ⟨x, hx⟩ := h.1 _ (getElem_mem hlt)
      have hle := hafter data[m] (mem_iff_getElem?.2 ⟨0, by simp⟩) x hx
      rw [hget m hlt, getElem?_eq_getElem hlt]
      simp only [hx, Option.all_some, Option.mem_def, Option.some.injEq, exists_eq_left',
        decide_eq_true_eq, not_lt]
      constructor
      · rintro ⟨-, hge⟩
        exact le_antisymm hge hle
      · intro heq
        exact ⟨by omega, heq.le⟩

end Firebird.Common.Pages
