import Mathlib.Data.List.Nodup

/-!
# Lists of records with a key

Records found, changed and removed by a key that no two of them share.
-/
namespace Firebird.Lib.Keyed

open List

variable {α κ : Type*} [DecidableEq κ] {key : α → κ} {l : List α} {a : α}

theorem find?_eq (h : (l.map key).Nodup) (ha : a ∈ l) :
    (l.find? fun b => key b = key a) = some a := by
  cases hf : l.find? fun b => key b = key a with
  | none => simpa using find?_eq_none.1 hf a ha
  | some b =>
    have hk : key b = key a := by simpa using find?_some hf
    rw [inj_on_of_nodup_map h (mem_of_find?_eq_some hf) ha hk]

theorem of_find?_eq {k : κ} (h : (l.find? fun b => key b = k) = some a) : a ∈ l ∧ key a = k :=
  ⟨mem_of_find?_eq_some h, by simpa using find?_some h⟩

theorem exists_split (h : (l.map key).Nodup) (ha : a ∈ l) :
    ∃ l₁ l₂, l = l₁ ++ a :: l₂ ∧
      (∀ f : α → α, (l.map fun b => if key b = key a then f b else b) = l₁ ++ f a :: l₂) ∧
      (l.filter fun b => key b ≠ key a) = l₁ ++ l₂ := by
  obtain ⟨l₁, l₂, rfl⟩ := append_of_mem ha
  rw [map_append, map_cons, nodup_middle, nodup_cons, mem_append] at h
  have h₁ : ∀ b ∈ l₁, key b ≠ key a := fun b hb hk =>
    h.1 (.inl (hk ▸ mem_map_of_mem hb))
  have h₂ : ∀ b ∈ l₂, key b ≠ key a := fun b hb hk =>
    h.1 (.inr (hk ▸ mem_map_of_mem hb))
  refine ⟨l₁, l₂, rfl, fun f => ?_, ?_⟩
  · have e₁ : (l₁.map fun b => if key b = key a then f b else b) = l₁ :=
      (map_congr_left fun b hb => if_neg (h₁ b hb)).trans (map_id' l₁)
    have e₂ : (l₂.map fun b => if key b = key a then f b else b) = l₂ :=
      (map_congr_left fun b hb => if_neg (h₂ b hb)).trans (map_id' l₂)
    rw [map_append, map_cons, e₁, e₂, if_pos rfl]
  · have e₁ : (l₁.filter fun b => key b ≠ key a) = l₁ :=
      filter_eq_self.2 fun b hb => by simpa using h₁ b hb
    have e₂ : (l₂.filter fun b => key b ≠ key a) = l₂ :=
      filter_eq_self.2 fun b hb => by simpa using h₂ b hb
    rw [filter_append, filter_cons_of_neg (by simp), e₁, e₂]

theorem find?_update {f : α → α} (hf : ∀ a, key (f a) = key a) (k : κ) :
    ((l.map fun b => if key b = k then f b else b).find? fun b => key b = k) =
      (l.find? fun b => key b = k).map f := by
  induction l with
  | nil => rfl
  | cons b l ih =>
    rw [map_cons]
    by_cases h : key b = k
    · rw [if_pos h, find?_cons_of_pos (by simp [hf, h]), find?_cons_of_pos (by simp [h])]
      rfl
    · rw [if_neg h, find?_cons_of_neg (by simp [h]), find?_cons_of_neg (by simp [h]), ih]

end Firebird.Lib.Keyed
