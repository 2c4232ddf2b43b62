import Mathlib.Data.List.Perm.Basic
import Mathlib.Order.Basic
import Mathlib.Tactic.Ring

/-!
# Parts of an array

Slots have ranks and are to be put in their order. On the way an array is cut into parts, intervals
of slots that are not in order yet: two slots of different parts are in order already. A part is
cut in two around a slot that has its place, and a part of two slots is put right by one exchange.
-/
namespace Firebird.Lib.Parts

open List

variable {ρ : Type*} [Preorder ρ]

/-- The slots from the first to the last one; none if the last comes before the first. -/
abbrev Part := Nat × Nat

def Part.Has (p : Part) (k : Nat) : Prop := p.1 ≤ k ∧ k ≤ p.2

def Apart (p q : Part) : Prop := ∀ k, ¬ (p.Has k ∧ q.Has k)

/-- Slots `1` to `n` are cut into parts. -/
structure Cut (n : Nat) (parts : List Part) (rank : Nat → ρ) : Prop where
  inside : ∀ p ∈ parts, 1 ≤ p.1 ∧ p.2 ≤ n
  apart : parts.Pairwise Apart
  sorted : ∀ a b, 1 ≤ a → a < b → b ≤ n → rank a ≤ rank b ∨ ∃ p ∈ parts, p.Has a ∧ p.Has b

variable {n : Nat} {parts parts' : List Part} {p : Part} {rank rank' : Nat → ρ}

theorem Apart.symm {q : Part} (h : Apart p q) : Apart q p := fun k hk => h k hk.symm

theorem cut_whole (n : Nat) (rank : Nat → ρ) : Cut n [(1, n)] rank where
  inside := by simp
  apart := pairwise_singleton _ _
  sorted a b ha hab hb := .inr ⟨(1, n), mem_singleton_self _, ⟨ha, by omega⟩, by omega, hb⟩

theorem Cut.perm (h : Cut n parts rank) (hp : parts.Perm parts') : Cut n parts' rank where
  inside p hmem := h.inside p (hp.mem_iff.2 hmem)
  apart := (hp.pairwise_iff fun hpq => hpq.symm).1 h.apart
  sorted a b ha hab hb := (h.sorted a b ha hab hb).imp_right
    fun ⟨p, hmem, hpa⟩ => ⟨p, hp.mem_iff.1 hmem, hpa⟩

/-- The slots outside a part keep their ranks, those inside have ranks from inside. -/
structure Shuffled (n : Nat) (p : Part) (rank rank' : Nat → ρ) : Prop where
  outside : ∀ k, 1 ≤ k → k ≤ n → ¬ p.Has k → rank' k = rank k
  inside : ∀ k, p.Has k → ∃ k', p.Has k' ∧ rank' k = rank k'

theorem Cut.beyond (h : Cut n (p :: parts) rank) (hs : Shuffled n p rank rank') {a b : Nat}
    (ha : 1 ≤ a) (hab : a < b) (hb : b ≤ n) (hnot : ¬ (p.Has a ∧ p.Has b)) :
    rank' a ≤ rank' b ∨ ∃ q ∈ parts, q.Has a ∧ q.Has b := by
  obtain ⟨hp1, hp2⟩ := h.inside p mem_cons_self
  have happart : ∀ q ∈ parts, Apart p q := (pairwise_cons.1 h.apart).1
  by_cases hpa : p.Has a
  · have hpb : ¬ p.Has b := fun hpb => hnot ⟨hpa, hpb⟩
    have hlast : p.2 < b := by
      by_contra hle
      exact hpb ⟨hpa.1.trans hab.le, by omega⟩
    obtain ⟨k, hk, hka⟩ := hs.inside a hpa
    rw [hka, hs.outside b (by omega) hb hpb]
    rcases h.sorted k b (hp1.trans hk.1) (hk.2.trans_lt hlast) hb with hle | ⟨q, hq, hqk, hqb⟩
    · exact .inl hle
    · rcases mem_cons.1 hq with rfl | hmem
      · exact absurd hqb hpb
      · exact absurd ⟨hk, hqk⟩ (happart q hmem k)
  · by_cases hpb : p.Has b
    · have hfirst : a < p.1 := by
        by_contra hle
        exact hpa ⟨by omega, hab.le.trans hpb.2⟩
      obtain ⟨k, hk, hkb⟩ := hs.inside b hpb
      rw [hkb, hs.outside a ha (by omega) hpa]
      rcases h.sorted a k ha (hfirst.trans_le hk.1) (hk.2.trans hp2) with hle | ⟨q, hq, hqa, hqk⟩
      · exact .inl hle
      · rcases mem_cons.1 hq with rfl | hmem
        · exact absurd hqa hpa
        · exact absurd ⟨hk, hqk⟩ (happart q hmem k)
    · rw [hs.outside a ha (by omega) hpa, hs.outside b (by omega) hb hpb]
      rcases h.sorted a b ha hab hb with hle | ⟨q, hq, hqa, hqb⟩
      · exact .inl hle
      · rcases mem_cons.1 hq with rfl | hmem
        · exact absurd hqa hpa
        · exact .inr ⟨q, hmem, hqa, hqb⟩

theorem Cut.le_next {r u : Nat} (h : Cut n ((r, u) :: parts) rank)
    (hs : Shuffled n (r, u) rank rank') (hru : r ≤ u) (hu : u < n) : rank' r ≤ rank' (u + 1) := by
  have hr : 1 ≤ r := (h.inside (r, u) mem_cons_self).1
  have hnot : ¬ (Part.Has (r, u) r ∧ Part.Has (r, u) (u + 1)) := fun hor =>
    absurd hor.2.2 (Nat.not_succ_le_self u)
  rcases h.beyond hs hr (by omega) hu hnot with hle | ⟨q, hq, hqr, -⟩
  · exact hle
  · exact absurd ⟨⟨le_rfl, hru⟩, hqr⟩ ((pairwise_cons.1 h.apart).1 q hq r)

theorem Cut.split {r u j : Nat} (h : Cut n ((r, u) :: parts) rank)
    (hs : Shuffled n (r, u) rank rank') (hrj : r ≤ j) (hju : j ≤ u)
    (hlow : ∀ k, r ≤ k → k < j → rank' k ≤ rank' j)
    (hhigh : ∀ k, j < k → k ≤ u → rank' j ≤ rank' k) :
    Cut n ((r, j - 1) :: (j + 1, u) :: parts) rank' where
  inside := by
    obtain ⟨hr, hu⟩ := h.inside (r, u) mem_cons_self
    intro p hp
    simp only [mem_cons] at hp
    rcases hp with rfl | rfl | hmem
    · exact ⟨hr, by simp only at hu ⊢; omega⟩
    · exact ⟨by simp, hu⟩
    · exact h.inside p (mem_cons_of_mem _ hmem)
  apart := by
    obtain ⟨happart, hparts⟩ := pairwise_cons.1 h.apart
    have hr := (h.inside (r, u) mem_cons_self).1
    refine pairwise_cons.2 ⟨?_, pairwise_cons.2 ⟨?_, hparts⟩⟩
    · intro q hq k hk
      rcases mem_cons.1 hq with rfl | hmem
      · have h1 := hk.1.2
        have h2 := hk.2.1
        simp only at h1 h2 hr
        omega
      · have hkj : k ≤ j - 1 := hk.1.2
        exact happart q hmem k ⟨⟨hk.1.1, by simp only; omega⟩, hk.2⟩
    · intro q hq k hk
      have hjk : j + 1 ≤ k := hk.1.1
      exact happart q hq k ⟨⟨by simp only; omega, hk.1.2⟩, hk.2⟩
  sorted := by
    intro a b ha hab hb
    by_cases hin : Part.Has (r, u) a ∧ Part.Has (r, u) b
    · obtain ⟨⟨hra, hau⟩, hrb, hbu⟩ := hin
      rcases Nat.lt_or_ge b j with hbj | hjb
      · refine .inr ⟨(r, j - 1), by simp, ⟨hra, ?_⟩, hrb, ?_⟩ <;> simp only <;> omega
      · rcases Nat.lt_or_ge j a with hja | haj
        · exact .inr ⟨(j + 1, u), by simp, ⟨hja, hau⟩, hja.trans hab, hbu⟩
        · left
          have hleft : rank' a ≤ rank' j := by
            rcases Nat.lt_or_eq_of_le haj with hlt | rfl
            · exact hlow a hra hlt
            · exact le_rfl
          have hright : rank' j ≤ rank' b := by
            rcases Nat.lt_or_eq_of_le hjb with hlt | rfl
            · exact hhigh b hlt hbu
            · exact le_rfl
          exact hleft.trans hright
    · refine (h.beyond hs ha hab hb hin).imp_right fun ⟨q, hq, hqab⟩ => ⟨q, ?_, hqab⟩
      exact mem_cons_of_mem _ (mem_cons_of_mem _ hq)

/-- Slots are in order, except for neighbours from `t` on. -/
def Paired (n t : Nat) (rank : Nat → ρ) : Prop :=
  ∀ a b, 1 ≤ a → a < b → b ≤ n → rank a ≤ rank b ∨ b = a + 1 ∧ t ≤ a

theorem Cut.paired (h : Cut n parts rank) (hsmall : ∀ p ∈ parts, p.2 - p.1 < 2) :
    Paired n 1 rank := by
  intro a b ha hab hb
  refine (h.sorted a b ha hab hb).imp_right ?_
  rintro ⟨p, hmem, ⟨hpa, -⟩, -, hbp⟩
  have hlt := hsmall p hmem
  exact ⟨by omega, ha⟩

theorem Paired.next {t : Nat} (h : Paired n t rank) (hle : t < n → rank t ≤ rank (t + 1)) :
    Paired n (t + 1) rank := by
  intro a b ha hab hb
  rcases h a b ha hab hb with hab' | ⟨rfl, hta⟩
  · exact .inl hab'
  · rcases Nat.lt_or_eq_of_le hta with hlt | rfl
    · exact .inr ⟨rfl, hlt⟩
    · exact .inl (hle (by omega))

theorem Paired.exchange {t : Nat} (h : Paired n t rank) (ht : 1 ≤ t) (htn : t < n)
    (hle : rank (t + 1) ≤ rank t) (hone : rank' t = rank (t + 1)) (htwo : rank' (t + 1) = rank t)
    (hother : ∀ k, 1 ≤ k → k ≤ n → k ≠ t → k ≠ t + 1 → rank' k = rank k) :
    Paired n (t + 1) rank' := by
  -- the lower of the two stands between the higher one and all slots behind them
  have hfar : ∀ a b, 1 ≤ a → a < b → b ≤ n → b ≠ a + 1 → rank a ≤ rank b := by
    intro a b ha hab hb hne
    exact (h a b ha hab hb).resolve_right fun hor => hne hor.1
  have hfront : ∀ a b, 1 ≤ a → a < t → a < b → b ≤ n → rank a ≤ rank b := by
    intro a b ha hat hab hb
    exact (h a b ha hab hb).resolve_right fun hor => absurd hor.2 (by omega)
  intro a b ha hab hb
  by_cases hta : a = t
  · subst hta
    left
    by_cases htb : b = a + 1
    · subst htb
      rwa [hone, htwo]
    · rw [hone, hother b (by omega) hb (by omega) htb]
      exact hle.trans (hfar a b ha hab hb htb)
  · by_cases hta' : a = t + 1
    · subst hta'
      left
      rw [htwo, hother b (by omega) hb (by omega) (by omega)]
      exact hfar t b ht (by omega) hb (by omega)
    · rw [hother a ha (by omega) hta hta']
      by_cases htb : b = t
      · subst htb
        rw [hone]
        exact .inl (hfront a (b + 1) ha hab (by omega) htn)
      · by_cases htb' : b = t + 1
        · subst htb'
          rw [htwo]
          exact .inl (hfront a t ha (by omega) (by omega) htn.le)
        · rw [hother b (by omega) hb htb htb']
          exact (h a b ha hab hb).imp_right fun hor => ⟨hor.1, by omega⟩

theorem Paired.sorted (h : Paired n n rank) {a b : Nat} (ha : 1 ≤ a) (hab : a < b) (hb : b ≤ n) :
    rank a ≤ rank b :=
  (h a b ha hab hb).resolve_right fun hor => absurd hor.2 (by omega)

def Part.size (p : Part) : Nat := p.2 + 1 - p.1

/-- Each part on the stack is at most half as large as the bound for the one under it. -/
def Halving (n : Nat) : List Part → Prop
  | [] => True
  | p :: stack => p.size * 2 ^ stack.length ≤ n ∧ Halving n stack

theorem Halving.push {q : Part} {stack : List Part} (h : Halving n (p :: stack))
    (hbottom : q.size ≤ p.size) {top : Part} (htop : 2 * top.size ≤ p.size) :
    Halving n (top :: q :: stack) := by
  obtain ⟨hp, hstack⟩ := h
  refine ⟨?_, ?_, hstack⟩
  · calc top.size * 2 ^ (q :: stack).length = 2 * top.size * 2 ^ stack.length := by
          rw [length_cons, Nat.pow_succ]
          ring
      _ ≤ p.size * 2 ^ stack.length := Nat.mul_le_mul_right _ htop
      _ ≤ n := hp
  · exact (Nat.mul_le_mul_right _ hbottom).trans hp

theorem Halving.length_lt {stack : List Part} {k : Nat} (h : Halving n (p :: stack))
    (hp : 1 ≤ p.size) (hn : n < 2 ^ k) : stack.length < k := by
  have hpow : 2 ^ stack.length ≤ p.size * 2 ^ stack.length := Nat.le_mul_of_pos_left _ hp
  have hlt : 2 ^ stack.length < 2 ^ k := (hpow.trans h.1).trans_lt hn
  exact (Nat.pow_lt_pow_iff_right (by omega)).1 hlt

/-- What is left to do: it gets less with each part that is taken. -/
def work (stack : List Part) : Nat := (stack.map fun p => 2 * p.size + 1).sum

@[simp]
theorem work_nil : work [] = 0 := rfl

@[simp]
theorem work_cons (p : Part) (stack : List Part) :
    work (p :: stack) = 2 * p.size + 1 + work stack := by
  rw [work, map_cons, sum_cons, work]

end Firebird.Lib.Parts
