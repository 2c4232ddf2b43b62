import Mathlib.Data.List.Basic

/-!
# Memory

A memory has a letter at every address. Words are stored in it and loaded from it, and a memory
holds a word at an address if loading gives that word.
-/
namespace Firebird.Lib.Memory

open List

variable {α : Type*}

def store (m : Nat → α) (p : Nat) (w : List α) : Nat → α :=
  fun i => if p ≤ i then w[i - p]?.getD (m i) else m i

def load (m : Nat → α) : Nat → Nat → List α
  | _, 0 => []
  | p, n + 1 => m p :: load m (p + 1) n

/-- A word is moved, also if its old and its new place overlap. -/
def move (m : Nat → α) (dst src n : Nat) : Nat → α := store m dst (load m src n)

def Holds (m : Nat → α) : Nat → List α → Prop
  | _, [] => True
  | p, a :: w => m p = a ∧ Holds m (p + 1) w

variable {m : Nat → α} {p q n : Nat} {w w' : List α} {a : α}

@[simp]
theorem holds_nil : Holds m p [] := trivial

@[simp]
theorem holds_cons : Holds m p (a :: w) ↔ m p = a ∧ Holds m (p + 1) w := Iff.rfl

@[simp]
theorem length_load : (load m p n).length = n := by
  induction n generalizing p with
  | zero => rfl
  | succ n ih => rw [load, length_cons, ih]

theorem Holds.load_eq (h : Holds m p w) : load m p w.length = w := by
  induction w generalizing p with
  | nil => rfl
  | cons a w ih => rw [length_cons, load, h.1, ih h.2]

theorem holds_load (m : Nat → α) (p n : Nat) : Holds m p (load m p n) := by
  induction n generalizing p with
  | zero => trivial
  | succ n ih => exact ⟨rfl, ih (p + 1)⟩

variable {m' : Nat → α}

theorem load_congr (h : ∀ i, p ≤ i → i < p + n → m' i = m i) :
    load m' p n = load m p n := by
  induction n generalizing p with
  | zero => rfl
  | succ n ih =>
    rw [load, load, h p (by omega) (by omega), ih fun i hi hi' => h i (by omega) (by omega)]

theorem load_add (m : Nat → α) (p n k : Nat) :
    load m p (n + k) = load m p n ++ load m (p + n) k := by
  induction n generalizing p with
  | zero => rw [Nat.zero_add, load, nil_append, Nat.add_zero]
  | succ n ih =>
    rw [Nat.succ_add, load, load, ih, cons_append, Nat.add_assoc, Nat.add_comm 1]

theorem load_apply {i : Nat} (h : load m' q n = load m p n) (hi : i < n) :
    m' (q + i) = m (p + i) := by
  induction n generalizing p q i with
  | zero => omega
  | succ n ih =>
    obtain ⟨hhead, htail⟩ := List.cons.inj h
    cases i with
    | zero => exact hhead
    | succ i =>
      have := ih htail (Nat.lt_of_succ_lt_succ hi)
      rwa [Nat.add_right_comm, Nat.add_right_comm p] at this

theorem load_eq (h : ∀ i, i < n → m' (q + i) = m (p + i)) :
    load m' q n = load m p n := by
  induction n generalizing p q with
  | zero => rfl
  | succ n ih =>
    have hhead : m' q = m p := h 0 (Nat.succ_pos n)
    rw [load, load, hhead, ih fun i hi => ?_]
    rw [Nat.add_assoc, Nat.add_assoc, Nat.add_comm 1]
    exact h (i + 1) (Nat.succ_lt_succ hi)

@[simp]
theorem holds_append : Holds m p (w ++ w') ↔ Holds m p w ∧ Holds m (p + w.length) w' := by
  induction w generalizing p with
  | nil => simp
  | cons a w ih =>
    rw [cons_append, holds_cons, holds_cons, ih, and_assoc, length_cons,
      Nat.add_right_comm, Nat.add_assoc]

theorem holds_iff : Holds m p w ↔ ∀ i, (h : i < w.length) → m (p + i) = w[i] := by
  induction w generalizing p with
  | nil => simp
  | cons a w ih =>
    rw [holds_cons, ih]
    constructor
    · rintro ⟨h, hw⟩ i hi
      cases i with
      | zero => exact h
      | succ i =>
        have hi' := hw i (by simpa using hi)
        rwa [Nat.add_assoc, Nat.add_comm 1] at hi'
    · intro h
      refine ⟨h 0 (by simp), fun i hi => ?_⟩
      rw [Nat.add_assoc, Nat.add_comm 1]
      exact h (i + 1) (by simpa using hi)

@[simp]
theorem store_nil (m : Nat → α) (p : Nat) : store m p [] = m := by
  funext i
  simp [store]

theorem store_of_lt (h : n < p) : store m p w n = m n := if_neg (by omega)

theorem store_of_le (h : p + w.length ≤ n) : store m p w n = m n := by
  rw [store, if_pos (by omega), getElem?_eq_none (by omega), Option.getD_none]

theorem store_frame (h : n < p ∨ p + w.length ≤ n) : store m p w n = m n :=
  h.elim store_of_lt store_of_le

theorem store_add {i : Nat} (h : i < w.length) : store m p w (p + i) = w[i] := by
  rw [store, if_pos (by omega), Nat.add_sub_cancel_left, getElem?_eq_getElem h, Option.getD_some]

theorem holds_store : Holds (store m p w) p w := holds_iff.2 fun _ hi => store_add hi

theorem move_add {i : Nat} (h : i < n) : move m q p n (q + i) = m (p + i) := by
  rw [move, store_add (by rwa [length_load])]
  exact (holds_iff.1 (holds_load m p n) i (by rwa [length_load])).symm

theorem load_store_self (m : Nat → α) (p : Nat) (w : List α) :
    load (store m p w) p w.length = w :=
  holds_store.load_eq

theorem Holds.frame (h : Holds m p w)
    (heq : ∀ i, p ≤ i → i < p + w.length → m' i = m i) :
    Holds m' p w :=
  holds_iff.2 fun i hi => by rw [heq _ (by omega) (by omega), holds_iff.1 h i hi]

theorem Holds.store (h : Holds m p w) (hq : q + w'.length ≤ p ∨ p + w.length ≤ q) :
    Holds (store m q w') p w :=
  h.frame fun _ _ _ => store_frame (by omega)

theorem store_append (m : Nat → α) (p : Nat) (w w' : List α) :
    Memory.store m p (w ++ w') = Memory.store (Memory.store m p w) (p + w.length) w' := by
  funext i
  rcases Nat.lt_or_ge i p with h | h
  · rw [store_of_lt h, store_of_lt (by omega), store_of_lt h]
  · obtain ⟨i, rfl⟩ := Nat.exists_eq_add_of_le h
    by_cases hi : i < w.length
    · rw [store_add (by rw [length_append]; omega), store_of_lt (by omega), store_add hi,
        getElem_append_left hi]
    · obtain ⟨i, rfl⟩ := Nat.exists_eq_add_of_le (Nat.le_of_not_lt hi)
      by_cases hi' : i < w'.length
      · rw [store_add (by rw [length_append]; omega), ← Nat.add_assoc, store_add hi',
          getElem_append_right (by omega)]
        simp
      · rw [store_of_le (by rw [length_append]; omega), store_of_le (by omega),
          store_of_le (by omega)]

theorem store_comm (h : p + w.length ≤ q ∨ q + w'.length ≤ p) :
    Memory.store (Memory.store m p w) q w' = Memory.store (Memory.store m q w') p w := by
  funext i
  by_cases hp : p ≤ i ∧ i < p + w.length
  · obtain ⟨i, rfl⟩ := Nat.exists_eq_add_of_le hp.1
    rw [store_frame (p := q) (by omega), store_add (by omega), store_add (by omega)]
  · rw [store_frame (p := p) (m := Memory.store m q w') (by omega)]
    by_cases hq : q ≤ i ∧ i < q + w'.length
    · obtain ⟨i, rfl⟩ := Nat.exists_eq_add_of_le hq.1
      rw [store_add (by omega), store_add (by omega)]
    · rw [store_frame (by omega), store_frame (by omega), store_frame (by omega)]

end Firebird.Lib.Memory
