import Mathlib.Data.List.Basic
import Mathlib.Tactic.Ring

/-!
# Stuffed tuples

A tuple of strings as one string: each string is cut into groups of `g + 1` letters, with a marker
in front of each group that falls from one string of the tuple to the next. The last group of every
string but the last one is padded with zeros. The order of such strings is that of the tuples.
-/
namespace Firebird.Lib.Stuff

open List

variable {α : Type*}

def NoTrail (zero : α) (s : List α) : Prop := s.getLast? ≠ some zero

/-- The first `g` letters, padded with zeros. -/
def group (zero : α) (g : Nat) (s : List α) : List α :=
  s.take g ++ List.replicate (g - s.length) zero

def padded (zero : α) (g : Nat) (m : α) : List α → List α
  | [] => []
  | x :: xs => m :: x :: (group zero g xs ++ padded zero g m (xs.drop g))
termination_by s => s.length
decreasing_by
  rw [length_drop, length_cons]
  omega

def stuffed (g : Nat) (m : α) : List α → List α
  | [] => []
  | x :: xs => m :: x :: (xs.take g ++ stuffed g m (xs.drop g))
termination_by s => s.length
decreasing_by
  rw [length_drop, length_cons]
  omega

def tuple (zero : α) (g : Nat) (marker : Nat → α) : List (List α) → List α
  | [] => []
  | [s] => stuffed g (marker 1) s
  | s :: t :: rest =>
    padded zero g (marker (rest.length + 2)) s ++ tuple zero g marker (t :: rest)

/-- The string of the first strings of a tuple of `n`. -/
def front (zero : α) (g : Nat) (marker : Nat → α) : Nat → List (List α) → List α
  | _, [] => []
  | n, s :: rest => padded zero g (marker n) s ++ front zero g marker (n - 1) rest

/-- The string is empty, or begins with a letter below the marker. -/
def Below [LT α] (m : α) (s : List α) : Prop := ∀ x ∈ s.head?, x < m

variable {zero m : α} {g n : Nat} {a b x y : List α} {marker : Nat → α} {s t : List (List α)}

@[simp]
theorem padded_nil : padded zero g m [] = [] := by
  rw [padded]

theorem padded_cons (c : α) :
    padded zero g m (c :: a) = m :: c :: (group zero g a ++ padded zero g m (a.drop g)) := by
  rw [padded]

@[simp]
theorem stuffed_nil : stuffed g m [] = [] := by
  rw [stuffed]

theorem stuffed_cons (c : α) :
    stuffed g m (c :: a) = m :: c :: (a.take g ++ stuffed g m (a.drop g)) := by
  rw [stuffed]

theorem NoTrail.tail {c : α} (h : NoTrail zero (c :: a)) (ha : a ≠ []) : NoTrail zero a := by
  cases a with
  | nil => exact absurd rfl ha
  | cons d a => simpa [NoTrail] using h

theorem NoTrail.drop (h : NoTrail zero a) (k : Nat) : NoTrail zero (a.drop k) := by
  rw [NoTrail, getLast?_drop]
  split_ifs
  · simp
  · exact h

@[simp]
theorem length_group (s : List α) : (group zero g s).length = g := by
  simp only [group, length_append, length_take, length_replicate]
  omega

theorem group_nil_succ : group zero (g + 1) [] = zero :: group zero g [] := by
  simp [group, replicate_succ]

theorem group_cons_succ (c : α) : group zero (g + 1) (c :: a) = c :: group zero g a := by
  simp [group]

variable [LT α]

theorem append_lt_append (hlen : a.length = b.length) (h : a < b) : a ++ x < b ++ y := by
  induction a generalizing b with
  | nil =>
    cases b with
    | nil => exact absurd h (not_lt_nil _)
    | cons d b => simp at hlen
  | cons c a ih =>
    cases b with
    | nil => simp at hlen
    | cons d b =>
      rw [cons_append, cons_append, cons_lt_cons_iff]
      obtain hcd | ⟨rfl, hab⟩ := cons_lt_cons_iff.1 h
      · exact .inl hcd
      · exact .inr ⟨rfl, ih (by simpa using hlen) hab⟩

theorem append_lt_append_left (h : x < y) : a ++ x < a ++ y := by
  induction a with
  | nil => exact h
  | cons c a ih => exact cons_lt_cons_iff.2 (.inr ⟨rfl, ih⟩)

theorem group_lt (hzero : ∀ c : α, c ≠ zero → zero < c) (hb : NoTrail zero b) (h : a < b) :
    group zero g a < group zero g b ∨ group zero g a = group zero g b ∧ a.drop g < b.drop g := by
  induction g generalizing a b with
  | zero => exact .inr ⟨by simp [group], h⟩
  | succ g ih =>
    cases b with
    | nil => exact absurd h (not_lt_nil _)
    | cons d b =>
      cases a with
      | nil =>
        rw [group_nil_succ, group_cons_succ, cons_lt_cons_iff]
        by_cases hd : d = zero
        · subst hd
          have hne : b ≠ [] := by
            rintro rfl
            simp [NoTrail] at hb
          have hlt : [] < b := by
            cases b with
            | nil => exact absurd rfl hne
            | cons e b => exact nil_lt_cons e b
          obtain hlt | ⟨heq, hlt⟩ := ih (hb.tail hne) hlt
          · exact .inl (.inr ⟨rfl, hlt⟩)
          · exact .inr ⟨by rw [heq], by simpa using hlt⟩
        · exact .inl (.inl (hzero d hd))
      | cons c a =>
        rw [group_cons_succ, group_cons_succ, cons_lt_cons_iff]
        obtain hcd | ⟨rfl, hab⟩ := cons_lt_cons_iff.1 h
        · exact .inl (.inl hcd)
        · have hne : b ≠ [] := by
            rintro rfl
            exact not_lt_nil _ hab
          obtain hlt | ⟨heq, hlt⟩ := ih (hb.tail hne) hab
          · exact .inl (.inr ⟨rfl, hlt⟩)
          · exact .inr ⟨by rw [heq], by simpa using hlt⟩

theorem padded_lt (hzero : ∀ c : α, c ≠ zero → zero < c) (hb : NoTrail zero b) (h : a < b)
    (hx : Below m x) : padded zero g m a ++ x < padded zero g m b ++ y := by
  induction hn : a.length using Nat.strongRecOn generalizing a b with
  | ind n ih =>
    cases b with
    | nil => exact absurd h (not_lt_nil _)
    | cons d b =>
      rw [padded_cons]
      cases a with
      | nil =>
        rw [padded_nil, nil_append]
        cases x with
        | nil => exact nil_lt_cons _ _
        | cons c x => exact cons_lt_cons_iff.2 (.inl (hx c rfl))
      | cons c a =>
        rw [padded_cons]
        simp only [cons_append, cons_lt_cons_iff, true_and]
        right
        obtain hcd | ⟨rfl, hab⟩ := cons_lt_cons_iff.1 h
        · exact .inl hcd
        · refine .inr ⟨rfl, ?_⟩
          rw [append_assoc, append_assoc]
          have hne : b ≠ [] := by
            rintro rfl
            exact not_lt_nil _ hab
          obtain hlt | ⟨heq, hlt⟩ := group_lt (g := g) hzero (hb.tail hne) hab
          · exact append_lt_append (by simp) hlt
          · rw [heq]
            refine append_lt_append_left (ih (a.drop g).length ?_ ((hb.tail hne).drop g) hlt rfl)
            rw [length_cons] at hn
            rw [length_drop]
            omega

theorem take_lt {k : Nat} (h : a < b) (hstuffed : ∀ a' b' : List α, a'.length ≤ a.length →
    a' < b' → stuffed g m a' < stuffed g m b') :
    a.take k ++ stuffed g m (a.drop k) < b.take k ++ stuffed g m (b.drop k) := by
  induction k generalizing a b with
  | zero => exact hstuffed a b (Nat.le_refl _) h
  | succ k ih =>
    cases b with
    | nil => exact absurd h (not_lt_nil _)
    | cons d b =>
      cases a with
      | nil =>
        rw [take_nil, drop_nil, stuffed_nil]
        exact nil_lt_cons _ _
      | cons c a =>
        obtain hcd | ⟨rfl, hab⟩ := cons_lt_cons_iff.1 h
        · exact cons_lt_cons_iff.2 (.inl hcd)
        · refine cons_lt_cons_iff.2 (.inr ⟨rfl, ih hab fun a' b' hlen => ?_⟩)
          exact hstuffed a' b' (Nat.le_succ_of_le hlen)

theorem stuffed_lt (h : a < b) : stuffed g m a < stuffed g m b := by
  induction hn : a.length using Nat.strongRecOn generalizing a b with
  | ind n ih =>
    cases b with
    | nil => exact absurd h (not_lt_nil _)
    | cons d b =>
      rw [stuffed_cons]
      cases a with
      | nil =>
        rw [stuffed_nil]
        exact nil_lt_cons _ _
      | cons c a =>
        rw [stuffed_cons]
        simp only [cons_lt_cons_iff, true_and]
        right
        obtain hcd | ⟨rfl, hab⟩ := cons_lt_cons_iff.1 h
        · exact .inl hcd
        · refine .inr ⟨rfl, take_lt hab fun a' b' hlen hlt => ih _ ?_ hlt rfl⟩
          rw [length_cons] at hn
          omega

omit [LT α] in
theorem tuple_cons (hs : s ≠ []) :
    tuple zero g marker (a :: s) =
      padded zero g (marker (s.length + 1)) a ++ tuple zero g marker s := by
  cases s with
  | nil => exact absurd rfl hs
  | cons t rest => rw [tuple, length_cons]

theorem Below.padded_append (ha : a = [] → Below m x) {m' : α} (h : m' < m) :
    Below m (padded zero g m' a ++ x) := by
  cases a with
  | nil =>
    rw [padded_nil]
    exact ha rfl
  | cons c a =>
    rw [padded_cons]
    intro d hd
    obtain rfl : m' = d := by simpa using hd
    exact h

theorem below_tuple (hmono : ∀ k, 0 < k → k ≤ s.length → marker k < m) :
    Below m (tuple zero g marker s) := by
  induction s with
  | nil => simp [tuple, Below]
  | cons a s ih =>
    by_cases hs : s = []
    · subst hs
      rw [tuple]
      cases a with
      | nil => simp [Below]
      | cons c a =>
        rw [stuffed_cons]
        intro d hd
        obtain rfl : marker 1 = d := by simpa using hd
        exact hmono 1 Nat.one_pos (Nat.le_refl _)
    · rw [tuple_cons hs]
      refine Below.padded_append (fun _ => ih fun k hpos hk => ?_)
        (hmono _ (Nat.succ_pos _) (Nat.le_refl _))
      exact hmono k hpos (Nat.le_succ_of_le hk)

theorem tuple_lt (hzero : ∀ c : α, c ≠ zero → zero < c)
    (hmono : ∀ i j, 0 < i → i < j → j ≤ s.length → marker i < marker j)
    (ht : ∀ b ∈ t, NoTrail zero b) (hlen : s.length = t.length) (h : s < t) :
    tuple zero g marker s < tuple zero g marker t := by
  induction s generalizing t with
  | nil =>
    cases t with
    | nil => exact absurd h (not_lt_nil _)
    | cons b t => simp at hlen
  | cons a s ih =>
    cases t with
    | nil => simp at hlen
    | cons b t =>
      have hlen' : s.length = t.length := by simpa using hlen
      by_cases hs : s = []
      · subst hs
        obtain rfl : t = [] := eq_nil_of_length_eq_zero hlen'.symm
        obtain hab | ⟨-, habs⟩ := cons_lt_cons_iff.1 h
        · exact stuffed_lt hab
        · exact absurd habs (not_lt_nil _)
      · have hne : t ≠ [] := fun ht => hs (eq_nil_of_length_eq_zero (by rw [hlen', ht]; rfl))
        rw [tuple_cons hs, tuple_cons hne, hlen']
        obtain hab | ⟨rfl, hst⟩ := cons_lt_cons_iff.1 h
        · refine padded_lt hzero (ht b mem_cons_self) hab (below_tuple fun k hpos hk => ?_)
          exact hmono k _ hpos (by omega) (by rw [length_cons]; omega)
        · refine append_lt_append_left (ih (fun i j hi hij hj => ?_)
            (fun c hc => ht c (mem_cons_of_mem _ hc)) hlen' hst)
          exact hmono i j hi hij (Nat.le_succ_of_le hj)

theorem Below.trans [Trans (fun c d : α => c < d) (fun c d : α => c < d) (fun c d : α => c < d)]
    (h : Below m x) {m' : α} (hm : m < m') : Below m' x :=
  fun c hc => Trans.trans (r := fun c d : α => c < d) (s := fun c d : α => c < d) (h c hc) hm

theorem Below.front_append (hx : Below m x)
    (hmono : ∀ k, n - s.length < k → k ≤ n → marker k < m) (hlen : s.length ≤ n) :
    Below m (front zero g marker n s ++ x) := by
  induction s generalizing n with
  | nil => exact hx
  | cons a s ih =>
    rw [length_cons] at hlen hmono
    rw [front, append_assoc]
    refine Below.padded_append (fun _ => ih (fun k hk hle => ?_) (by omega)) ?_
    · exact hmono k (by omega) (by omega)
    · exact hmono n (by omega) (Nat.le_refl _)

theorem padded_inj [Std.Trichotomous (fun c d : α => c < d)] [Std.Irrefl (fun c d : α => c < d)]
    (hzero : ∀ c : α, c ≠ zero → zero < c) (ha : NoTrail zero a) (hb : NoTrail zero b)
    (hx : Below m x) (hy : Below m y)
    (h : padded zero g m a ++ x = padded zero g m b ++ y) : a = b := by
  apply List.le_antisymm
  · intro hlt
    exact List.lt_irrefl _ (h ▸ padded_lt hzero ha hlt hy)
  · intro hlt
    exact List.lt_irrefl _ (h ▸ padded_lt hzero hb hlt hx)

variable [Std.Trichotomous (fun c d : α => c < d)] [Std.Irrefl (fun c d : α => c < d)]
  [Trans (fun c d : α => c < d) (fun c d : α => c < d) (fun c d : α => c < d)]

/-- The string of the first strings of a tuple is in front of the tuples that have these strings,
with one of the other markers behind it, and of no others. -/
theorem front_prefix_iff (hzero : ∀ c : α, c ≠ zero → zero < c)
    (hmono : ∀ i j, 0 < i → i < j → j ≤ t.length → marker i < marker j)
    (hs : ∀ b ∈ s, NoTrail zero b) (ht : ∀ b ∈ t, NoTrail zero b) (hlt : s.length < t.length) :
    (∃ x, tuple zero g marker t = front zero g marker t.length s ++ x ∧
      (s ≠ [] → Below (marker (t.length - s.length + 1)) x)) ↔ s <+: t := by
  induction s generalizing t with
  | nil => exact ⟨fun _ => nil_prefix, fun _ => ⟨_, rfl, fun h => absurd rfl h⟩⟩
  | cons a s ih =>
    cases t with
    | nil => simp at hlt
    | cons b t =>
      have hlt' : s.length < t.length := by simpa using hlt
      have hne : t ≠ [] := ne_nil_of_length_pos (by omega)
      have ih := @ih t (fun i j hi hij hj => hmono i j hi hij (Nat.le_succ_of_le hj))
        (fun c hc => hs c (mem_cons_of_mem _ hc))
        (fun c hc => ht c (mem_cons_of_mem _ hc)) hlt'
      have hbelow : Below (marker (t.length + 1)) (tuple zero g marker t) :=
        below_tuple fun k hpos hk => hmono k _ hpos (by omega) (Nat.le_refl _)
      simp only [tuple_cons hne, front, length_cons, Nat.add_sub_cancel, cons_prefix_cons, ← ih]
      have hdiff : t.length + 1 - (s.length + 1) = t.length - s.length := by omega
      rw [hdiff]
      constructor
      · rintro ⟨x, heq, hmark⟩
        have hx := hmark (cons_ne_nil _ _)
        have hx' : Below (marker (t.length + 1)) (front zero g marker t.length s ++ x) := by
          by_cases hnil : s = []
          · subst hnil
            exact hx
          · have hpos : 0 < s.length := length_pos_iff.2 hnil
            refine Below.front_append (hx.trans (hmono _ _ (by omega) (by omega) (Nat.le_refl _)))
              (fun k hk hle => hmono k _ (by omega) (by omega) (Nat.le_refl _)) (by omega)
        rw [append_assoc] at heq
        obtain rfl := padded_inj hzero (ht b mem_cons_self) (hs a mem_cons_self) hbelow
          hx' heq
        exact ⟨rfl, x, append_cancel_left heq, fun _ => hx⟩
      · rintro ⟨rfl, x, heq, hx⟩
        refine ⟨x, by rw [heq, append_assoc], fun _ => ?_⟩
        by_cases hnil : s = []
        · subst hnil
          rw [front, nil_append] at heq
          exact heq ▸ hbelow
        · exact hx hnil

end Firebird.Lib.Stuff
