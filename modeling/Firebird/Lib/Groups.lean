import Mathlib.Algebra.Order.Group.Nat
import Firebird.Lib.Stuff

/-!
# Groups of stuffed tuples

The string of a tuple is a list of groups of letters, each with a marker in front. The markers fall,
and only the last group can be short. Where the groups of two tuples differ first tells how many
strings the tuples have in common.
-/
namespace Firebird.Lib.Stuff

variable {α : Type*}

def word (marker : Nat → α) (G : List (Nat × List α)) : List α :=
  G.flatMap fun x => marker x.1 :: x.2

/-- The groups of a string; `rest` makes the letters of a group behind the first one. -/
def pieces (g : Nat) (rest : List α → List α) (m : Nat) : List α → List (Nat × List α)
  | [] => []
  | x :: xs => (m, x :: rest xs) :: pieces g rest m (xs.drop g)
termination_by s => s.length
decreasing_by
  rw [List.length_drop, List.length_cons]
  omega

def groups (zero : α) (g : Nat) : List (List α) → List (Nat × List α)
  | [] => []
  | [s] => pieces g (List.take g) 1 s
  | s :: t :: rest => pieces g (group zero g) (rest.length + 2) s ++ groups zero g (t :: rest)

def filled (zero : α) (g : Nat) : List α → List α
  | [] => []
  | x :: xs => x :: (group zero g xs ++ filled zero g (xs.drop g))
termination_by s => s.length
decreasing_by
  rw [List.length_drop, List.length_cons]
  omega

def strings (zero : α) (g : Nat) : List (List α) → List (List α)
  | [] => []
  | [s] => [s]
  | s :: t :: rest => filled zero g s :: strings zero g (t :: rest)

def Grouped (g : Nat) : List (Nat × List α) → Prop
  | [] => True
  | (m, w) :: G =>
    1 ≤ m ∧ w ≠ [] ∧ w.length ≤ g + 1 ∧ (G ≠ [] → w.length = g + 1) ∧ (∀ x ∈ G, x.1 ≤ m) ∧ Grouped g
      G

/-- The marker of the first string in which two tuples differ, and 0 if there is none. -/
def firstDiff [DecidableEq α] : List (Nat × List α) → List (Nat × List α) → Nat
  | [], [] => 0
  | (m, _) :: _, [] => m
  | [], (m, _) :: _ => m
  | (m, w) :: G, (m', w') :: G' => if m = m' then if w = w' then firstDiff G G' else m else max m m'

variable {zero : α} {g m n c k : Nat} {s t : List α} {G G' : List (Nat × List α)} {marker : Nat → α}
  {rest : List α → List α}

@[simp]
theorem word_nil : word marker [] = [] := rfl

@[simp]
theorem word_cons (w : List α) : word marker ((m, w) :: G) = marker m :: (w ++ word marker G) := rfl

theorem word_append : word marker (G ++ G') = word marker G ++ word marker G' := List.flatMap_append

@[simp]
theorem pieces_nil : pieces g rest m [] = [] := by rw [pieces]

theorem word_pieces_group (s : List α) :
    word marker (pieces g (group zero g) m s) = padded zero g (marker m) s := by
  fun_induction pieces g (group zero g) m s with
  | case1 => rw [word_nil, padded_nil]
  | case2 x xs ih => rw [word_cons, ih, padded_cons, List.cons_append]

theorem word_pieces_take (s : List α) :
    word marker (pieces g (List.take g) m s) = stuffed g (marker m) s := by
  fun_induction pieces g (List.take g) m s with
  | case1 => rw [word_nil, stuffed_nil]
  | case2 x xs ih => rw [word_cons, ih, stuffed_cons, List.cons_append]

theorem word_groups (s : List (List α)) : word marker (groups zero g s) = tuple zero g marker
    s := by
  fun_induction groups zero g s with
  | case1 => rfl
  | case2 s => rw [word_pieces_take, tuple]
  | case3 s t rest ih => rw [word_append, word_pieces_group, ih, tuple]

theorem fst_of_mem_pieces {x : Nat × List α} (h : x ∈ pieces g rest m s) : x.1 = m := by
  fun_induction pieces g rest m s with
  | case1 => cases h
  | case2 y ys ih =>
    rcases List.mem_cons.1 h with rfl | h
    · rfl
    · exact ih h

theorem fst_of_mem_groups {s : List (List α)} {x : Nat × List α} (h : x ∈ groups zero g s) :
    1 ≤ x.1 ∧ x.1 ≤ s.length := by
  fun_induction groups zero g s with
  | case1 => cases h
  | case2 s =>
    rw [fst_of_mem_pieces h]
    simp
  | case3 s t rest ih =>
    rcases List.mem_append.1 h with h | h
    · rw [fst_of_mem_pieces h]
      simp
    · have := ih h
      simp only [List.length_cons] at this ⊢
      omega

theorem Grouped.append_pieces (hm : 1 ≤ m) (h : Grouped g G) (hG : ∀ x ∈ G, x.1 ≤ m) :
    Grouped g (pieces g (group zero g) m s ++ G) := by
  fun_induction pieces g (group zero g) m s with
  | case1 => exact h
  | case2 y ys ih =>
    refine ⟨hm, by simp, by simp, fun _ => by simp, ?_, ih⟩
    intro x hx
    rcases List.mem_append.1 hx with hx | hx
    · exact (fst_of_mem_pieces hx).le
    · exact hG x hx

theorem grouped_pieces_take (hm : 1 ≤ m) : Grouped g (pieces g (List.take g) m s) := by
  fun_induction pieces g (List.take g) m s with
  | case1 => trivial
  | case2 y ys ih =>
    refine ⟨hm, by simp, by simp, fun hne => ?_,
      fun x hx => (fst_of_mem_pieces hx).le, ih⟩
    have hdrop : ys.drop g ≠ [] := by
      intro h
      rw [h, pieces_nil] at hne
      exact hne rfl
    rw [Ne, List.drop_eq_nil_iff] at hdrop
    rw [List.length_cons, List.length_take]
    omega

theorem grouped_groups (s : List (List α)) : Grouped g (groups zero g s) := by
  fun_induction groups zero g s with
  | case1 => trivial
  | case2 s => exact grouped_pieces_take le_rfl
  | case3 s t rest ih =>
    refine Grouped.append_pieces (by omega) ih fun x hx => ?_
    have := (fst_of_mem_groups hx).2
    simp only [List.length_cons] at this
    omega

theorem Grouped.filter_eq_nil_iff {w : List α} (h : Grouped g ((m, w) :: G)) :
    ((m, w) :: G).filter (c ≤ ·.1) = [] ↔ m < c := by
  obtain ⟨-, -, -, -, hle, -⟩ := h
  rw [List.filter_eq_nil_iff]
  constructor
  · intro h
    simpa using h (m, w) List.mem_cons_self
  · intro hlt x hx
    rcases List.mem_cons.1 hx with rfl | hx
    · simpa using hlt
    · have := hle x hx
      simp only [decide_eq_true_eq]
      omega

theorem firstDiff_lt [DecidableEq α] (hG : ∀ x ∈ G, x.1 < c) (hG' : ∀ x ∈ G', x.1 < c)
    (hc : 1 ≤ c) :
    firstDiff G G' < c := by
  induction G generalizing G' with
  | nil =>
    cases G' with
    | nil => exact hc
    | cons x G' => exact hG' x List.mem_cons_self
  | cons x G ih =>
    cases G' with
    | nil => exact hG x List.mem_cons_self
    | cons y G' =>
      have hx := hG x List.mem_cons_self
      have hy := hG' y List.mem_cons_self
      rw [firstDiff]
      split_ifs
      · exact ih (fun z hz => hG z (List.mem_cons_of_mem _ hz))
          fun z hz => hG' z (List.mem_cons_of_mem _ hz)
      · exact hx
      · exact max_lt hx hy

theorem Grouped.lt_of_lt {w : List α} (h : Grouped g ((m, w) :: G)) (hlt : m < c) :
    ∀ x ∈ (m, w) :: G, x.1 < c := by
  intro x hx
  rcases List.mem_cons.1 hx with rfl | hx
  · exact hlt
  · exact lt_of_le_of_lt (h.2.2.2.2.1 x hx) hlt

theorem filter_eq_iff [DecidableEq α] (hG : Grouped g G) (hG' : Grouped g G') (hc : 1 ≤ c) :
    G.filter (c ≤ ·.1) = G'.filter (c ≤ ·.1) ↔ firstDiff G G' < c := by
  induction G generalizing G' with
  | nil =>
    cases G' with
    | nil => exact iff_of_true rfl hc
    | cons y G' =>
      rw [List.filter_nil, eq_comm, hG'.filter_eq_nil_iff]
      rfl
  | cons x G ih =>
    obtain ⟨m, w⟩ := x
    cases G' with
    | nil =>
      rw [List.filter_nil, hG.filter_eq_nil_iff]
      rfl
    | cons y G' =>
      obtain ⟨m', w'⟩ := y
      by_cases hm : m < c
      · rw [hG.filter_eq_nil_iff.2 hm, eq_comm, hG'.filter_eq_nil_iff]
        constructor
        · exact fun hm' => firstDiff_lt (hG.lt_of_lt hm) (hG'.lt_of_lt hm') hc
        · intro hlt
          by_contra hm'
          rw [firstDiff, if_neg (by omega)] at hlt
          omega
      · by_cases hm' : m' < c
        · rw [hG'.filter_eq_nil_iff.2 hm', hG.filter_eq_nil_iff, firstDiff, if_neg (by omega)]
          exact iff_of_false hm (by omega)
        · have hle : decide (c ≤ (m, w).1) = true := by simpa using hm
          have hle' : decide (c ≤ (m', w').1) = true := by simpa using hm'
          rw [List.filter_cons, List.filter_cons, if_pos hle, if_pos hle', List.cons.injEq,
            Prod.mk.injEq, ih hG.2.2.2.2.2 hG'.2.2.2.2.2, firstDiff]
          split_ifs with heq hw
          · simp [heq, hw]
          · exact iff_of_false (fun h => hw h.1.2) hm
          · exact iff_of_false (fun h => heq h.1.1) (by omega)

theorem pieces_group_eq_iff :
    pieces g (group zero g) m s = pieces g (group zero g) m t ↔ filled zero g s = filled zero g
      t := by
  fun_induction pieces g (group zero g) m s generalizing t with
  | case1 =>
    cases t with
    | nil => simp
    | cons y ys =>
      rw [pieces, filled, filled]
      simp
  | case2 x xs ih =>
    cases t with
    | nil =>
      rw [pieces_nil, filled, filled]
      simp
    | cons y ys =>
      rw [pieces, filled, filled, List.cons.injEq, ih, Prod.mk.injEq, List.cons.injEq,
        List.cons.injEq]
      constructor
      · rintro ⟨⟨-, rfl, hgroup⟩, hrest⟩
        exact ⟨rfl, by rw [hgroup, hrest]⟩
      · rintro ⟨rfl, happend⟩
        obtain ⟨hgroup, hrest⟩ := List.append_inj happend (by rw [length_group, length_group])
        exact ⟨⟨rfl, rfl, hgroup⟩, hrest⟩

theorem pieces_take_eq_iff :
    pieces g (List.take g) m s = pieces g (List.take g) m t ↔ s = t := by
  fun_induction pieces g (List.take g) m s generalizing t with
  | case1 =>
    cases t with
    | nil => simp
    | cons y ys =>
      rw [pieces]
      simp
  | case2 x xs ih =>
    cases t with
    | nil => simp
    | cons y ys =>
      rw [pieces, List.cons.injEq, ih, Prod.mk.injEq, List.cons.injEq, List.cons.injEq]
      constructor
      · rintro ⟨⟨-, rfl, htake⟩, hdrop⟩
        exact ⟨rfl, by rw [← List.take_append_drop g xs, htake, hdrop, List.take_append_drop]⟩
      · rintro ⟨rfl, rfl⟩
        exact ⟨⟨rfl, rfl, rfl⟩, rfl⟩

theorem append_eq_append_iff {A A' B B' : List (Nat × List α)} (hA : ∀ x ∈ A, x.1 = n)
    (hA' : ∀ x ∈ A', x.1 = n) (hB : ∀ x ∈ B, x.1 < n) (hB' : ∀ x ∈ B', x.1 < n) :
    A ++ B = A' ++ B' ↔ A = A' ∧ B = B' := by
  constructor
  · intro h
    have hfilter := congrArg (List.filter (·.1 == n)) h
    have hnil {B : List (Nat × List α)} (hB : ∀ x ∈ B, x.1 < n) : B.filter (·.1 == n) = [] :=
      List.filter_eq_nil_iff.2 fun x hx => by simpa using (hB x hx).ne
    have hself {A : List (Nat × List α)} (hA : ∀ x ∈ A, x.1 = n) : A.filter (·.1 == n) = A :=
      List.filter_eq_self.2 fun x hx => by simpa using hA x hx
    rw [List.filter_append, List.filter_append, hself hA, hself hA', hnil hB, hnil hB',
      List.append_nil, List.append_nil] at hfilter
    subst hfilter
    exact ⟨rfl, List.append_cancel_left h⟩
  · rintro ⟨rfl, rfl⟩
    rfl

theorem take_strings_eq_iff {s t : List (List α)} (hs : s.length = n) (ht : t.length = n)
    (hk : k < n) :
    (strings zero g s).take (k + 1) = (strings zero g t).take (k + 1) ↔
      (groups zero g s).filter (n - k ≤ ·.1) = (groups zero g t).filter (n - k ≤ ·.1) := by
  induction s generalizing t n k with
  | nil =>
    rw [List.length_nil] at hs
    omega
  | cons s₀ s ih =>
    obtain ⟨t₀, t, rfl⟩ : ∃ t₀ t', t = t₀ :: t' :=
      List.exists_cons_of_ne_nil (by rintro rfl; simp at hs ht; omega)
    cases s with
    | nil =>
      obtain rfl : t = [] := by
        rw [List.length_cons, List.length_nil] at hs
        rw [List.length_cons, ← hs] at ht
        exact List.eq_nil_of_length_eq_zero (by omega)
      have hself (u : List α) :
          (pieces g (List.take g) 1 u).filter (n - k ≤ ·.1) = pieces g (List.take g) 1 u := by
        refine List.filter_eq_self.2 fun x hx => ?_
        rw [fst_of_mem_pieces hx, decide_eq_true_eq]
        simp at hs
        omega
      rw [groups, groups, hself, hself, pieces_take_eq_iff, strings, strings]
      simp
    | cons s₁ s =>
      obtain ⟨t₁, t, rfl⟩ : ∃ t₁ t', t = t₁ :: t' :=
        List.exists_cons_of_ne_nil (by rintro rfl; simp at hs ht; omega)
      have hlength : t.length = s.length := by
        simp only [List.length_cons] at hs ht
        omega
      have hself (u : List α) : (pieces g (group zero g) (s.length + 2) u).filter (n - k ≤ ·.1) =
          pieces g (group zero g) (s.length + 2) u := by
        refine List.filter_eq_self.2 fun x hx => ?_
        rw [fst_of_mem_pieces hx, decide_eq_true_eq]
        simp only [List.length_cons] at hs
        omega
      have hlt {u : List (List α)} (hu : u.length = s.length + 1) :
          ∀ x ∈ (groups zero g u).filter (n - k ≤ ·.1), x.1 < s.length + 2 := by
        intro x hx
        have := (fst_of_mem_groups (List.mem_of_mem_filter hx)).2
        omega
      rw [groups, groups, hlength, List.filter_append, List.filter_append, hself, hself,
        append_eq_append_iff (fun x hx => fst_of_mem_pieces hx) (fun x hx => fst_of_mem_pieces hx)
          (hlt rfl) (hlt (by rw [List.length_cons, hlength])),
        pieces_group_eq_iff, strings, strings, List.take_succ_cons, List.take_succ_cons,
        List.cons.injEq]
      refine and_congr_right fun _ => ?_
      simp only [List.length_cons] at hs ht
      cases k with
      | zero =>
        have hnil {u : List (List α)} (hu : u.length = s.length + 1) :
            (groups zero g u).filter (n - 0 ≤ ·.1) = [] := by
          refine List.filter_eq_nil_iff.2 fun x hx => ?_
          have := (fst_of_mem_groups hx).2
          rw [decide_eq_true_eq]
          omega
        rw [hnil rfl, hnil (by rw [List.length_cons, hlength])]
        simp
      | succ k =>
        have ih := ih (n := n - 1) (t := t₁ :: t) (k := k) (by simp; omega) (by simp; omega)
          (by omega)
        rw [ih, show n - 1 - k = n - (k + 1) by omega]

end Firebird.Lib.Stuff
