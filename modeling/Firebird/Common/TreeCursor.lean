import Firebird.Common.TreeItems

/-!
# Positions on the pages of a tree

A position of an accessor cuts the items of the tree in two: those before it, and those from its
item on. Behind the last item of a page stands the first one of the next page.
-/
namespace Firebird.Common.Pages

open Lib Links List

variable {α κ : Type} [LinearOrder κ] {p : Template α κ} {t : Tree α} {lv : Nat → List Addr}
variable {A B leaves : List Addr} {curr : Addr} {low high before after : List α}

/-- The tree is complete, with these pages of items and these items. -/
def Shape (p : Template α κ) (t : Tree α) (leaves : List Addr) (f : Addr → List α) : Prop :=
  ∃ lv, Rep p t lv ∧ lv 0 = leaves ∧ t.items = f

theorem Shape.holds {f : Addr → List α} (h : Shape p t leaves f) :
    Holds p t (leaves.flatMap f) := by
  obtain ⟨lv, hrep, hleaves, hitems⟩ := h
  exact .inr ⟨lv, hrep, by rw [allItems, hleaves, hitems]⟩

def At (t : Tree α) (leaves : List Addr) (pos : Position) (before after : List α) : Prop :=
  ∃ A curr B low high, leaves = A ++ curr :: B ∧ pos = ⟨some curr, low.length⟩ ∧
    t.items curr = low ++ high ∧ high ≠ [] ∧ before = A.flatMap t.items ++ low ∧
    after = high ++ B.flatMap t.items

/-- What tells that there is an item, and its position. -/
def Lands (t : Tree α) (leaves : List Addr) (r : Bool × Position) (before after : List α) : Prop :=
  r.1 = true ∧ At t leaves r.2 before after ∨ r.1 = false ∧ after = []

theorem At.after_ne_nil {pos : Position} (h : At t leaves pos before after) : after ≠ [] := by
  obtain ⟨A, curr, B, low, high, -, -, -, hne, -, rfl⟩ := h
  simp [hne]

theorem At.append {pos : Position} (h : At t leaves pos before after) :
    leaves.flatMap t.items = before ++ after := by
  obtain ⟨A, curr, B, low, high, rfl, -, hitems, -, rfl, rfl⟩ := h
  rw [flatMap_append, flatMap_cons, hitems]
  simp

theorem Lands.fst_eq {r : Bool × Position} (h : Lands t leaves r before after) :
    r.1 = true ↔ after ≠ [] := by
  rcases h with ⟨htrue, hat⟩ | ⟨hfalse, rfl⟩
  · exact ⟨fun _ => hat.after_ne_nil, fun _ => htrue⟩
  · simp [hfalse]

theorem lands_here (hsplit : leaves = A ++ curr :: B) (hitems : t.items curr = low ++ high)
    (hne : high ≠ []) :
    Lands t leaves (true, ⟨some curr, low.length⟩) (A.flatMap t.items ++ low)
      (high ++ B.flatMap t.items) :=
  .inl ⟨rfl, A, curr, B, low, high, hsplit, rfl, hitems, hne, rfl, rfl⟩

theorem lands_head (hsplit : leaves = A ++ B) (hfilled : ∀ b ∈ B, t.items b ≠ []) :
    Lands t leaves (B.head?.isSome, ⟨B.head?, 0⟩) (A.flatMap t.items) (B.flatMap t.items) := by
  cases B with
  | nil => exact .inr ⟨rfl, rfl⟩
  | cons b B =>
    exact .inl ⟨rfl, A, b, B, [], t.items b, hsplit, rfl, rfl, hfilled b (by simp), by simp,
      by simp⟩

theorem Rep.filled_behind (h : Rep p t lv) (hsplit : lv 0 = A ++ curr :: B) :
    ∀ b ∈ B, t.items b ≠ [] := by
  intro b hb
  refine h.filled (.inr ?_) b (by rw [hsplit]; simp [hb])
  have := length_pos_of_mem hb
  rw [hsplit, length_append, length_cons]
  omega

theorem Rep.filled_before (h : Rep p t lv) (hsplit : lv 0 = A ++ curr :: B) :
    ∀ a ∈ A, t.items a ≠ [] := by
  intro a ha
  refine h.filled (.inr ?_) a (by rw [hsplit]; simp [ha])
  have := length_pos_of_mem ha
  rw [hsplit, length_append, length_cons]
  omega

theorem Rep.lands_next (h : Rep p t lv) (hsplit : lv 0 = A ++ curr :: B) :
    Lands t (lv 0) ((t.next curr).isSome, ⟨t.next curr, 0⟩)
      (A.flatMap t.items ++ t.items curr) (B.flatMap t.items) := by
  have hlinked := h.links 0 (Nat.zero_le _)
  rw [hsplit] at hlinked
  have hlands := lands_head (t := t) (show lv 0 = (A ++ [curr]) ++ B by rw [hsplit]; simp)
    (h.filled_behind hsplit)
  rw [hlinked.next_eq]
  rwa [flatMap_append, flatMap_singleton] at hlands

theorem Rep.lands_from (h : Rep p t lv) (hsplit : lv 0 = A ++ curr :: B)
    (hitems : t.items curr = low ++ high) :
    Lands t (lv 0)
      (if low.length ≥ (t.items curr).length then ((t.next curr).isSome, ⟨t.next curr, 0⟩)
      else (true, ⟨some curr, low.length⟩))
      (A.flatMap t.items ++ low) (high ++ B.flatMap t.items) := by
  rcases eq_nil_or_concat high with rfl | ⟨_, _, hhigh⟩
  · rw [append_nil] at hitems
    have hlands := h.lands_next hsplit
    rw [hitems] at hlands ⊢
    rwa [if_pos (Nat.le_refl _)]
  · have hne : high ≠ [] := by simp [hhigh]
    have hlen : ¬low.length ≥ (t.items curr).length := by
      have := length_pos_of_ne_nil hne
      rw [hitems, length_append]
      omega
    rw [if_neg hlen]
    exact lands_here hsplit hitems hne

theorem Rep.adjust_lands (h : Rep p t lv) (hsplit : lv 0 = A ++ curr :: B)
    (hitems : t.items curr = low ++ high) :
    Lands t (lv 0) (t.adjust curr low.length).1 (A.flatMap t.items ++ low)
      (high ++ B.flatMap t.items) := by
  have hlands := h.lands_from hsplit hitems
  rw [Tree.adjust]
  split_ifs at hlands ⊢
  · exact hlands
  · exact hlands

def Takes (p : Template α κ) (r : (Bool × Position) × Tree α) (before after : List α) : Prop :=
  ∃ leaves, Shape p r.2 leaves r.2.items ∧ leaves.flatMap r.2.items = before ++ after ∧
    Lands r.2 leaves r.1 before after

theorem Takes.holds {r : (Bool × Position) × Tree α} (h : Takes p r before after) :
    Holds p r.2 (before ++ after) := by
  obtain ⟨leaves, hshape, hall, -⟩ := h
  rw [← hall]
  exact hshape.holds

theorem adjust_tree (curr : Addr) (curPos : Nat) : (t.adjust curr curPos).2 = t := by
  rw [Tree.adjust]
  split_ifs <;> rfl

section Shape

variable {f : Addr → List α}

theorem Shape.takes_head (h : Shape p t leaves f) (hsplit : leaves = A ++ B)
    (hfilled : ∀ b ∈ B, f b ≠ []) :
    Takes p ((B.head?.isSome, ⟨B.head?, 0⟩), t) (A.flatMap f) (B.flatMap f) := by
  obtain ⟨lv, hrep, hleaves, rfl⟩ := h
  refine ⟨leaves, ⟨lv, hrep, hleaves, rfl⟩, ?_, lands_head hsplit hfilled⟩
  rw [hsplit, flatMap_append]

theorem Shape.takes_here (h : Shape p t leaves f) (hsplit : leaves = A ++ curr :: B)
    (hitems : f curr = low ++ high) (hne : high ≠ []) :
    Takes p ((true, ⟨some curr, low.length⟩), t) (A.flatMap f ++ low) (high ++ B.flatMap f) := by
  obtain ⟨lv, hrep, hleaves, rfl⟩ := h
  refine ⟨leaves, ⟨lv, hrep, hleaves, rfl⟩, ?_, lands_here hsplit hitems hne⟩
  rw [hsplit, flatMap_append, flatMap_cons, hitems]
  simp

theorem Shape.takes_adjust (h : Shape p t leaves f) (hsplit : leaves = A ++ curr :: B)
    (hitems : f curr = low ++ high) :
    Takes p (t.adjust curr low.length) (A.flatMap f ++ low) (high ++ B.flatMap f) := by
  obtain ⟨lv, hrep, rfl, rfl⟩ := h
  have hlands := hrep.adjust_lands hsplit hitems
  refine ⟨lv 0, ?_, ?_, ?_⟩
  · rw [adjust_tree]
    exact ⟨lv, hrep, rfl, rfl⟩
  · rw [adjust_tree, hsplit, flatMap_append, flatMap_cons, hitems]
    simp
  · rwa [adjust_tree]

end Shape

end Firebird.Common.Pages
