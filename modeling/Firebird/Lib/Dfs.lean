import Mathlib.Logic.Relation
import Mathlib.Order.WellFounded
import Mathlib.Data.List.Basic

/-!
# Depth-first search for a cycle

A search over successor lists with two marks per node: on the current path, and done. It finds a
node of a cycle if and only if one can be reached, and comes to an end with more fuel than there
are nodes. Nodes that cannot be reached may carry any marks.
-/
namespace Firebird.Lib.Dfs

open List

variable {α : Type*}

structure Marks (α : Type*) where
  path : α → Bool
  done : α → Bool

/-- The result of a search: a node of a cycle, if any, and the marks. -/
abbrev Result (α : Type*) := Option (Option α × Marks α)

/-- Search from each of the nodes, up to the first that finds something. -/
def searchAll (search : α → Marks α → Result α) : List α → Marks α → Result α
  | [], m => some (none, m)
  | y :: ys, m =>
    match search y m with
    | none => none
    | some (some v, m) => some (some v, m)
    | some (none, m) => searchAll search ys m

/-- Search from a node; `none` is out of fuel. -/
def search [DecidableEq α] (succ : α → List α) : Nat → α → Marks α → Result α
  | 0, _, _ => none
  | fuel + 1, x, m =>
    if m.done x then some (none, m)
    else if m.path x then some (some x, m)
    else
      match searchAll (search succ fuel) (succ x) ⟨Function.update m.path x true, m.done⟩ with
      | none => none
      | some (some v, m) => some (some v, m)
      | some (none, m) =>
        some (none, ⟨Function.update m.path x false, Function.update m.done x true⟩)

def Edge (succ : α → List α) (x y : α) : Prop := y ∈ succ x

/-- Every walk from `x` comes to an end. -/
def Ends (succ : α → List α) (x : α) : Prop := Acc (fun y x => Edge succ x y) x

section Graph

variable {succ : α → List α} {x y : α}

theorem Ends.of_reach (h : Ends succ x) (hxy : Relation.ReflTransGen (Edge succ) x y) :
    Ends succ y := by
  induction hxy with
  | refl => exact h
  | tail _ hedge ih => exact ih.inv hedge

theorem Ends.no_cycle (h : Ends succ x) : ¬ Relation.TransGen (Edge succ) x x := by
  induction h with
  | intro x _ ih =>
    intro hcycle
    obtain ⟨y, hedge, hback⟩ := Relation.TransGen.head'_iff.mp hcycle
    exact ih y hedge (Relation.TransGen.tail' hback hedge)

end Graph

variable {succ : α → List α} {S : α → Prop}

/-- What is done in the region `S` lies on no cycle. -/
def Settled (succ : α → List α) (S : α → Prop) (m : Marks α) : Prop :=
  ∀ y, S y → m.done y = true → Ends succ y

/-- A search that found nothing: the path is as before, more nodes are done. -/
structure Exhausts (succ : α → List α) (S : α → Prop) (m m' : Marks α) : Prop where
  path : m'.path = m.path
  done : ∀ y, m.done y = true → m'.done y = true
  settled : Settled succ S m → Settled succ S m'

theorem Exhausts.refl (m : Marks α) : Exhausts succ S m m := ⟨rfl, fun _ h => h, id⟩

variable {m m' : Marks α}

theorem Exhausts.trans {m₁ : Marks α} (h : Exhausts succ S m m₁)
    (h' : Exhausts succ S m₁ m') : Exhausts succ S m m' :=
  ⟨h'.path.trans h.path, fun y hy => h'.done y (h.done y hy), fun hs => h'.settled (h.settled hs)⟩

variable {f : α → Marks α → Result α} {U ys : List α}

theorem searchAll_none
    (hf : ∀ y m m', f y m = some (none, m') → Exhausts succ S m m' ∧ m'.done y = true)
    (h : searchAll f ys m = some (none, m')) :
    Exhausts succ S m m' ∧ ∀ y ∈ ys, m'.done y = true := by
  induction ys generalizing m with
  | nil =>
    cases h
    exact ⟨.refl _, by simp⟩
  | cons y ys ih =>
    unfold searchAll at h
    split at h
    · cases h
    · cases h
    · next m₁ hy =>
      obtain ⟨hex, hdone⟩ := hf y m m₁ hy
      obtain ⟨hex', hall⟩ := ih h
      refine ⟨hex.trans hex', fun z hz => ?_⟩
      rcases mem_cons.mp hz with rfl | hz
      · exact hex'.done z hdone
      · exact hall z hz

variable {x : α} {fuel : Nat}

theorem search_none [DecidableEq α] (hS : ∀ x y, S x → Edge succ x y → S y)
    (h : search succ fuel x m = some (none, m')) :
    Exhausts succ S m m' ∧ m'.done x = true := by
  induction fuel generalizing x m m' with
  | zero => cases h
  | succ fuel ih =>
    unfold search at h
    split_ifs at h with hdone hpath
    · cases h
      exact ⟨.refl m, hdone⟩
    · cases h
    · split at h
      · cases h
      · cases h
      · next m₁ hall =>
        cases h
        obtain ⟨hex, hsucc⟩ := searchAll_none (fun y m m' => ih) hall
        refine ⟨⟨?_, fun y hy => ?_, fun hs y hy hd => ?_⟩, by simp⟩
        · -- `x` was not on the path before.
          rw [hex.path]
          funext y
          by_cases e : y = x
          · simpa [e] using hpath
          · simp [e]
        · by_cases e : y = x
          · simp [e]
          · simpa [e] using hex.done y hy
        · by_cases e : y = x
          · subst e
            exact Acc.intro y fun z hz => hex.settled hs z (hS y z hy hz) (hsucc z hz)
          · exact hex.settled hs y hy (by simpa [e] using hd)

theorem searchAll_some {P : Marks α → Prop} {Q : α → Prop}
    (hf : ∀ y ∈ ys, ∀ m, P m → (∀ v m', f y m = some (some v, m') → Q v) ∧
      ∀ m', f y m = some (none, m') → P m')
    {v : α} (hm : P m) (h : searchAll f ys m = some (some v, m')) : Q v := by
  induction ys generalizing m with
  | nil => cases h
  | cons y ys ih =>
    unfold searchAll at h
    split at h
    · cases h
    · next v' m₁ hy =>
      cases h
      exact (hf y (by simp) m hm).1 _ _ hy
    · next m₁ hy =>
      exact ih (fun z hz => hf z (by simp [hz])) ((hf y (by simp) m hm).2 m₁ hy) h

theorem search_some [DecidableEq α] (hS : ∀ x y, S x → Edge succ x y → S y) {v : α}
    (hx : S x)
    (hpath : ∀ y, S y → m.path y = true → Relation.TransGen (Edge succ) y x)
    (h : search succ fuel x m = some (some v, m')) :
    S v ∧ Relation.TransGen (Edge succ) v v := by
  induction fuel generalizing x v m m' with
  | zero => cases h
  | succ fuel ih =>
    unfold search at h
    split_ifs at h with hdone hmark
    · cases h
    · cases h
      exact ⟨hx, hpath x hx hmark⟩
    · split at h
      · cases h
      · next v' m₁ hall =>
        cases h
        -- The path stays that of `x` while the successors are searched.
        refine searchAll_some (P := fun m₁ => m₁.path = Function.update m.path x true)
          (Q := fun v => S v ∧ Relation.TransGen (Edge succ) v v)
          (fun y hy m₁ hm₁ => ⟨fun v m' hv => ?_, fun m' hm' => ?_⟩) rfl hall
        · refine ih (hS x y hx hy) (fun z hz hzp => ?_) hv
          rw [hm₁] at hzp
          by_cases e : z = x
          · exact .single (e ▸ hy)
          · exact (hpath z hz (by simpa [e] using hzp)).tail hy
        · exact (search_none hS hm').1.path.trans hm₁
      · cases h

/-- The nodes of `U` that are neither on the path nor done. -/
def unmarked (U : List α) (m : Marks α) : Nat := U.countP fun y => !m.path y && !m.done y

theorem Exhausts.unmarked_le (h : Exhausts succ S m m') (U : List α) :
    unmarked U m' ≤ unmarked U m := by
  refine countP_mono_left fun y _ hy => ?_
  simp only [Bool.and_eq_true] at hy ⊢
  refine ⟨h.path ▸ hy.1, ?_⟩
  by_contra hd
  simp [h.done y (by simpa using hd)] at hy

theorem unmarked_update_lt [DecidableEq α] (hx : x ∈ U)
    (hdone : m.done x = false) (hpath : m.path x = false) :
    unmarked U ⟨Function.update m.path x true, m.done⟩ < unmarked U m := by
  unfold unmarked
  induction U with
  | nil => simp at hx
  | cons y ys ih =>
    have hle : ys.countP (fun y => !Function.update m.path x true y && !m.done y) ≤
        ys.countP fun y => !m.path y && !m.done y := by
      refine countP_mono_left fun y _ hy => ?_
      by_cases e : y = x
      · simp [e] at hy
      · simpa [e] using hy
    by_cases e : y = x
    · subst e
      simpa [hdone, hpath] using Nat.lt_succ_of_le hle
    · have := ih ((mem_cons.mp hx).resolve_left (Ne.symm e))
      simp only [countP_cons, Function.update_of_ne e] at this ⊢
      omega

theorem searchAll_isSome {P : Marks α → Prop}
    (hf : ∀ y ∈ ys, ∀ m, P m → (f y m).isSome ∧ ∀ m', f y m = some (none, m') → P m')
    (hm : P m) : (searchAll f ys m).isSome := by
  induction ys generalizing m with
  | nil => rfl
  | cons y ys ih =>
    obtain ⟨hsome, hnext⟩ := hf y (by simp) m hm
    unfold searchAll
    split
    · next hnone => simp [hnone] at hsome
    · rfl
    · next m₁ hy => exact ih (fun z hz => hf z (by simp [hz])) (hnext m₁ hy)

theorem search_isSome [DecidableEq α] (hU : ∀ x ∈ U, ∀ y ∈ succ x, y ∈ U)
    (hx : x ∈ U) (hfuel : unmarked U m < fuel) :
    (search succ fuel x m).isSome := by
  induction fuel generalizing x m with
  | zero => exact absurd hfuel (Nat.not_lt_zero _)
  | succ fuel ih =>
    unfold search
    split_ifs with hdone hpath
    · rfl
    · rfl
    · have hlt := unmarked_update_lt hx (by simpa using hdone) (by simpa using hpath)
      have hstep : ∀ y ∈ succ x, ∀ m', unmarked U m' < fuel → (search succ fuel y m').isSome ∧
          ∀ m'', search succ fuel y m' = some (none, m'') → unmarked U m'' < fuel := by
        refine fun y hy m' hm' => ⟨ih (hU x hx y hy) hm', fun m'' h => ?_⟩
        have hex := (search_none (S := fun _ => True) (fun _ _ _ _ => trivial) h).1
        exact Nat.lt_of_le_of_lt (hex.unmarked_le U) hm'
      have hsome := searchAll_isSome hstep (Nat.lt_of_lt_of_le hlt (Nat.le_of_lt_succ hfuel))
      split
      · next hnone => simp [hnone] at hsome
      · rfl
      · rfl

theorem search_iff [DecidableEq α] (hU : ∀ x ∈ U, ∀ y ∈ succ x, y ∈ U)
    (hx : x ∈ U)
    (hclear : ∀ y, Relation.ReflTransGen (Edge succ) x y → m.path y = false ∧ m.done y = false) :
    (∃ v m', search succ (U.length + 1) x m = some (some v, m')) ↔
      ∃ c, Relation.ReflTransGen (Edge succ) x c ∧ Relation.TransGen (Edge succ) c c := by
  have hS : ∀ y z, Relation.ReflTransGen (Edge succ) x y → Edge succ y z →
      Relation.ReflTransGen (Edge succ) x z := fun y z hy hz => hy.tail hz
  constructor
  · rintro ⟨v, m', h⟩
    refine ⟨v, search_some hS .refl (fun y hy hp => ?_) h⟩
    simp [(hclear y hy).1] at hp
  · rintro ⟨c, hc, hcycle⟩
    have hsome := search_isSome hU hx (m := m)
      (Nat.lt_succ_of_le (countP_le_length (l := U)))
    obtain ⟨⟨v, m'⟩, h⟩ := Option.isSome_iff_exists.mp hsome
    cases v with
    | some v => exact ⟨v, m', h⟩
    | none =>
      obtain ⟨hex, hdone⟩ := search_none hS h
      have hsettled : Settled succ (Relation.ReflTransGen (Edge succ) x) m' := by
        refine hex.settled fun y hy hd => ?_
        simp [(hclear y hy).2] at hd
      exact absurd hcycle ((hsettled x .refl hdone).of_reach hc).no_cycle

end Firebird.Lib.Dfs
